import ShaderIR.Proofs.Elimination.Dwindling
import ShaderIR.Proofs.Promotion.Pointing

/-!
# Erasing variables

A variable that is only written is taken out after everything that uses it, and so is each
of its users in turn.  These are stores, which nothing uses, and references to elements.
An element reference has one base, so the users of a variable and of its elements form a
tree, and going down in it comes to an end within as many steps as there are values.

What is taken out has no user left, and the stores among it write to elements of the
variable that are taken out as well.
-/

namespace ShaderIR

namespace Store

/-- A pointer, its base, the base of that and so on, down to one that refers to no element. -/
inductive BasePath (store : Store) : List Ref → Prop
  | root {ref : Ref} (present : (store.value? ref).isSome) (notGep : store.isGep ref = false) :
      BasePath store [ref]
  | element {gep base : Ref} {rest : List Ref} (isGep : store.isGep gep = true)
      (head : (store.operands gep).head? = some (some base))
      (path : BasePath store (base :: rest)) :
      BasePath store (gep :: base :: rest)

/-- A pointer is only written through, and nothing uses the stores that write through it. -/
structure Erasable (store : Store) (pointer : Ref) : Prop where
  writeOnly : store.WriteOnly pointer
  idle : ∀ {derived use}, Relation.ReflTransGen store.Derives pointer derived →
    use ∈ store.usesOf derived → store.opcode? use.user = some .store →
    store.usesOf use.user = []

variable {store left last : Store} {ref user pointer element : Ref} {gone : List Ref}

/-! ## Bases -/

namespace BasePath

variable {before rest rest' : List Ref}

theorem suffix (path : store.BasePath (before ++ ref :: rest)) : store.BasePath (ref :: rest) := by
  induction before with
  | nil => exact path
  | cons first before induction =>
      apply induction
      cases before with
      | nil =>
          cases path with
          | element _ _ path => exact path
      | cons second before =>
          cases path with
          | element _ _ path => exact path

/-- A pointer has one path of bases. -/
theorem unique (path : store.BasePath (ref :: rest)) (path' : store.BasePath (ref :: rest')) :
    rest = rest' := by
  induction rest generalizing ref rest' with
  | nil =>
      cases path with
      | root _ notGep =>
          cases path' with
          | root => rfl
          | element isGep => simp [notGep] at isGep
  | cons base rest induction =>
      cases path with
      | element isGep head path =>
          cases path' with
          | root _ notGep => simp [notGep] at isGep
          | element _ head' path' =>
              cases head.symm.trans head'
              rw [induction path path']

/-- No pointer is its own base, directly or not. -/
theorem nodup (path : store.BasePath rest) : rest.Nodup := by
  induction path with
  | root => exact List.nodup_singleton _
  | @element gep base rest isGep head path distinct =>
      refine List.nodup_cons.2 ⟨fun member => ?_, distinct⟩
      obtain ⟨before, after, split⟩ := List.append_of_mem member
      have again : store.BasePath (gep :: after) := suffix (split ▸ path)
      have same : base :: rest = after := unique (.element isGep head path) again
      have longer := congrArg List.length split
      rw [same, List.length_append, List.length_cons] at longer
      omega

theorem present (path : store.BasePath rest) : ∀ ref ∈ rest, (store.value? ref).isSome := by
  induction path with
  | root present =>
      intro ref member
      rwa [List.mem_singleton.1 member]
  | element isGep _ _ present =>
      exact List.forall_mem_cons.2 ⟨value?_isSome_of_isGep isGep, present⟩

theorem length_le (path : store.BasePath rest) : rest.length ≤ store.values.size :=
  length_le_size path.nodup path.present

end BasePath

/-! ## Writing through a pointer -/

theorem Derives.isInstruction (derives : store.Derives pointer element) :
    store.isInstruction element = true :=
  isInstruction_of_opcode? (isGep_iff.1 derives.2)

theorem Coherent.fed_of_derived
    (coherent : store.Coherent)
    (isInstruction : store.isInstruction pointer = true)
    (derived : Relation.ReflTransGen store.Derives pointer element) :
    Relation.ReflTransGen store.Feeds pointer element ∧ store.isInstruction element = true := by
  induction derived with
  | refl => exact ⟨.refl, isInstruction⟩
  | tail _ derives fed =>
      obtain ⟨use, member, same⟩ := derives.1
      exact ⟨fed.1.tail (same ▸ coherent.feeds_of_use fed.2 member), derives.isInstruction⟩

/-- A write-only pointer is erasable when nothing uses the stores that it comes to. -/
theorem WriteOnly.erasable
    (writeOnly : store.WriteOnly pointer)
    (coherent : store.Coherent)
    (isInstruction : store.isInstruction pointer = true)
    (idle : ∀ ref, Relation.ReflTransGen store.Feeds pointer ref →
      store.opcode? ref = some .store → store.usesOf ref = []) :
    store.Erasable pointer where
  writeOnly := writeOnly
  idle := by
    intro derived use derives member isStore
    obtain ⟨fed, isInstruction⟩ := coherent.fed_of_derived isInstruction derives
    exact idle use.user (fed.tail (coherent.feeds_of_use isInstruction member)) isStore

/-- What a pointer derives from an erasable one is erasable. -/
theorem Erasable.derived
    (erasable : store.Erasable pointer)
    (derives : Relation.ReflTransGen store.Derives pointer element) :
    store.Erasable element where
  writeOnly := fun derived later => erasable.writeOnly derived (derives.trans later)
  idle := fun later => erasable.idle (derives.trans later)

/-- A user of an erasable pointer is an idle store or an erasable element of it. -/
theorem Erasable.store_or_element
    (erasable : store.Erasable pointer)
    {use : Use}
    (member : use ∈ store.usesOf pointer) :
    store.opcode? use.user = some .store ∧ store.usesOf use.user = [] ∧
        (∃ stored, store.operands use.user = [some pointer, stored]) ∨
      store.Derives pointer use.user ∧ (store.operands use.user).head? = some (some pointer) := by
  obtain ⟨entry, found, ⟨isStore, stored, values, -⟩ | ⟨isGep, head⟩⟩ :=
    erasable.writeOnly pointer .refl use member
  · have opcode : store.opcode? use.user = some .store := by simp [opcode?, found, isStore]
    refine .inl ⟨opcode, erasable.idle .refl member opcode, stored, ?_⟩
    simp [operands, found, values]
  · refine .inr ⟨⟨⟨use, member, rfl⟩, isGep_iff.2 ?_⟩, ?_⟩
    · simp [opcode?, found, isGep]
    · simpa [operands, found] using head

/-- What an erasable pointer comes to uses the pointer or an element derived from it. -/
theorem Erasable.of_fed
    (erasable : store.Erasable pointer)
    (coherent : store.Coherent)
    (fed : Relation.ReflTransGen store.Feeds pointer ref) :
    ref = pointer ∨ ∃ derived, Relation.ReflTransGen store.Derives pointer derived ∧
      ∃ use ∈ store.usesOf derived, use.user = ref := by
  induction fed with
  | refl => exact .inl rfl
  | tail _ feeds before =>
      obtain ⟨use, member, same⟩ := feeds.exists_use coherent
      refine .inr ?_
      rcases before with rfl | ⟨derived, derives, use', member', rfl⟩
      · exact ⟨_, .refl, use, member, same⟩
      · rcases (erasable.derived derives).store_or_element member' with ⟨-, unused, -⟩
          | ⟨element, -⟩
        · rw [unused] at member
          cases member
        · exact ⟨_, derives.tail element, use, member, same⟩

/-! ## Taking out what nothing uses -/

theorem Takes.feeds (takes : store.Takes gone left) (feeds : left.Feeds ref user) :
    store.Feeds ref user := by
  obtain ⟨block, linked⟩ := Option.isSome_iff_exists.1 feeds.linked
  refine ⟨Option.isSome_of_eq_some (takes.blockOf?_eq_some_iff.1 linked).1, ?_, ?_⟩
  · rw [← takes.operands]
    exact feeds.operand
  · have placed := feeds.placed
    rwa [takes.ages.isBlock, isInstruction, takes.instruction?, Option.isSome_map] at placed

theorem Takes.usesOf_eq_nil
    (takes : store.Takes gone left)
    (coherent : store.Coherent)
    (coherent' : left.Coherent)
    (unused : store.usesOf ref = []) :
    left.usesOf ref = [] := by
  refine coherent'.usesOf_eq_nil_iff.2 fun user linked operand => ?_
  obtain ⟨block, linked⟩ := Option.isSome_iff_exists.1 linked
  rw [takes.operands] at operand
  exact coherent.usesOf_eq_nil_iff.1 unused user
    (Option.isSome_of_eq_some (takes.blockOf?_eq_some_iff.1 linked).1) operand

end Store

namespace Pass

open Store Edit Elimination

variable {origin store left last : Store} {report report' report'' : Elimination}
  {ref pointer : Ref} {roots roots' gone gone' : List Ref} {bound : Nat}

/-- Linked instructions that roots come to are taken out and noted, and nothing uses them then. -/
structure Erases (store : Store) (report : Elimination) (roots gone : List Ref) (left : Store)
    (report' : Elimination) : Prop where
  takes : store.Takes gone left
  coherent : left.Coherent
  notes : report.Notes gone report'
  linked : ∀ ref ∈ gone, (store.blockOf? ref).isSome
  fed : ∀ ref ∈ gone, ∃ root ∈ roots, Relation.ReflTransGen store.Feeds root ref
  unused : ∀ ref ∈ gone, left.usesOf ref = []

namespace Erases

theorem refl (coherent : store.Coherent) : Erases store report [] [] store report where
  takes := .refl store
  coherent := coherent
  notes := .refl report
  linked := by simp
  fed := by simp
  unused := by simp

theorem trans
    (erases : Erases store report roots gone left report')
    (erases' : Erases left report' roots' gone' last report'') :
    Erases store report (roots ++ roots') (gone' ++ gone) last report'' where
  takes := erases.takes.trans erases'.takes
  coherent := erases'.coherent
  notes := erases.notes.trans erases'.notes
  linked := by
    intro ref member
    rcases List.mem_append.1 member with later | first
    · obtain ⟨block, linked⟩ := Option.isSome_iff_exists.1 (erases'.linked ref later)
      exact Option.isSome_of_eq_some (erases.takes.blockOf?_eq_some_iff.1 linked).1
    · exact erases.linked ref first
  fed := by
    intro ref member
    rcases List.mem_append.1 member with later | first
    · obtain ⟨root, member, fed⟩ := erases'.fed ref later
      exact ⟨root, List.mem_append_right _ member, 
        Relation.ReflTransGen.mono (fun _ _ => erases.takes.feeds) _ _ fed⟩
    · obtain ⟨root, member, fed⟩ := erases.fed ref first
      exact ⟨root, List.mem_append_left _ member, fed⟩
  unused := by
    intro ref member
    rcases List.mem_append.1 member with later | first
    · exact erases'.unused ref later
    · exact erases'.takes.usesOf_eq_nil erases.coherent erases'.coherent (erases.unused ref first)

end Erases

/-- A user is taken out with what uses it. -/
theorem erases_removeUser
    {remove : Elimination → Ref → Edit Elimination}
    {use : Use}
    (coherent : store.Coherent)
    (each : ∀ {report report' : Elimination} {store left : Store} {ref : Ref}, store.Coherent →
      (store.blockOf? ref).isSome → Gives (remove report ref) store report' left →
        ∃ gone, Erases store report [ref] gone left report' ∧ ref ∈ gone)
    (gives : Gives (removeUser remove report use) store report' left) :
    ∃ gone, Erases store report [use.user] gone left report' ∧ left.blockOf? use.user = none := by
  replace gives := gives_see_bind_iff.1 gives
  split at gives
  · rename_i linked
    obtain ⟨gone, erases, taken⟩ := each coherent linked gives
    exact ⟨gone, erases, erases.takes.blockOf?_taken taken⟩
  · rename_i unlinked
    obtain ⟨rfl, rfl⟩ := gives_pure_iff.1 gives
    exact ⟨[], { Erases.refl coherent with fed := by simp },
      Option.not_isSome_iff_eq_none.1 unlinked⟩

/-- Users are taken out one after the other, with what uses them. -/
theorem erases_removeUsers
    {remove : Elimination → Ref → Edit Elimination}
    {uses : List Use}
    (coherent : store.Coherent)
    (each : ∀ {report report' : Elimination} {store left : Store} {ref : Ref}, store.Coherent →
      (store.blockOf? ref).isSome → Gives (remove report ref) store report' left →
        ∃ gone, Erases store report [ref] gone left report' ∧ ref ∈ gone)
    (gives : Gives (uses.foldlM (removeUser remove) report) store report' left) :
    ∃ gone, Erases store report (uses.map (·.user)) gone left report' ∧
      ∀ use ∈ uses, left.blockOf? use.user = none := by
  induction uses generalizing report store with
  | nil =>
      obtain ⟨rfl, rfl⟩ := gives_pure_iff.1 gives
      exact ⟨[], .refl coherent, by simp⟩
  | cons use rest induction =>
      rw [List.foldlM_cons] at gives
      obtain ⟨between, middle, first, gives⟩ := gives_bind_iff.1 gives
      obtain ⟨gone, erases, unlinked⟩ := erases_removeUser coherent each first
      obtain ⟨gone', erases', others⟩ := induction erases.coherent gives
      refine ⟨gone' ++ gone, erases.trans erases', List.forall_mem_cons.2 ⟨?_, others⟩⟩
      refine Option.eq_none_iff_forall_ne_some.2 fun block linked => ?_
      cases unlinked.symm.trans (erases'.takes.blockOf?_eq_some_iff.1 linked).1

/-- An instruction is taken out with all that it comes to. -/
theorem erases_removeWithUsers
    (coherent : store.Coherent)
    (linked : (store.blockOf? ref).isSome)
    (gives : Gives (removeWithUsers bound report ref) store report' left) :
    ∃ gone, Erases store report [ref] gone left report' ∧ ref ∈ gone := by
  induction bound generalizing report report' store left ref with
  | zero => exact absurd gives not_gives_endless
  | succ bound induction =>
      replace gives := gives_see_bind_iff.1 gives
      obtain ⟨between, middle, users, gives⟩ := gives_bind_iff.1 gives
      obtain ⟨gone, erases, unlinked⟩ := erases_removeUsers coherent
        (fun coherent linked gives => induction coherent linked gives) users
      obtain ⟨takes, coherent', notes⟩ := takes_drop erases.coherent gives
      have takes' := erases.takes.trans takes
      refine ⟨[ref] ++ gone,
        { takes := takes'
          coherent := coherent'
          notes := erases.notes.trans notes
          linked := List.forall_mem_cons.2 ⟨linked, erases.linked⟩
          fed := List.forall_mem_cons.2 ⟨⟨ref, List.mem_singleton_self ref, .refl⟩, ?_⟩
          unused := List.forall_mem_cons.2 ⟨?_, ?_⟩ }, List.mem_cons_self⟩
      · intro other member
        obtain ⟨root, user, fed⟩ := erases.fed other member
        obtain ⟨use, listed, rfl⟩ := List.mem_map.1 user
        refine ⟨ref, List.mem_singleton_self ref, .head ?_ fed⟩
        exact coherent.feeds_of_use (isInstruction_of_linked linked) listed
      · refine coherent'.usesOf_eq_nil_iff.2 fun user stillLinked operand => ?_
        obtain ⟨block, stillLinked⟩ := Option.isSome_iff_exists.1 stillLinked
        have wasLinked := (takes'.blockOf?_eq_some_iff.1 stillLinked).1
        rw [takes'.operands] at operand
        obtain ⟨use, listed, rfl⟩ :=
          coherent.exists_use_iff.2 ⟨Option.isSome_of_eq_some wasLinked, operand⟩
        have between := (takes.blockOf?_eq_some_iff.1 stillLinked).1
        cases (unlinked use listed).symm.trans between
      · exact fun other member =>
          takes.usesOf_eq_nil erases.coherent coherent' (erases.unused other member)

/-! ## Coming to an end -/

theorem drop_ends (report : Elimination) (ref : Ref) : Ends (report.drop ref) :=
  Ends.bind (remove_ends ref) fun _ => Ends.pure _

theorem endsAt_removeWithUsers_of_unused (unused : store.usesOf ref = []) :
    EndsAt (removeWithUsers (bound + 1) report ref) store := by
  refine EndsAt.bind (Ends.see _ store) fun uses between seen => ?_
  obtain ⟨rfl, rfl⟩ := gives_see_iff.1 seen
  rw [unused, List.foldlM_nil]
  exact Ends.bind (Ends.pure report) (fun report => drop_ends report ref) _

/-- Removing users comes to an end when the removal of each of them does so at any later time. -/
theorem ensures_removeUsers
    {uses : List Use}
    (each : ∀ use ∈ uses, ∀ {gone report store}, origin.Takes gone store → store.Coherent →
      EndsAt (removeWithUsers bound report use.user) store)
    (takes : origin.Takes gone store)
    (coherent : store.Coherent) :
    Ensures (uses.foldlM (removeUser (removeWithUsers bound)) report) store fun _ left =>
      (∃ gone, origin.Takes gone left) ∧ left.Coherent := by
  refine .foldlM ⟨⟨gone, takes⟩, coherent⟩ ?_
  rintro use member report store ⟨⟨gone, takes⟩, coherent⟩
  refine .seeBind ?_
  split
  · rename_i linked
    refine ⟨each use member takes coherent, fun report' left gives => ?_⟩
    obtain ⟨gone', erases, -⟩ := erases_removeWithUsers coherent linked gives
    exact ⟨⟨_, takes.trans erases.takes⟩, erases.coherent⟩
  · exact .pure ⟨⟨gone, takes⟩, coherent⟩

/-- Removing an erasable pointer with all its users comes to an end. -/
theorem endsAt_removeWithUsers
    {rest : List Ref}
    (whole : origin.Coherent)
    (path : origin.BasePath (pointer :: rest))
    (erasable : origin.Erasable pointer)
    (enough : origin.values.size + 1 < (pointer :: rest).length + bound)
    (takes : origin.Takes gone store)
    (coherent : store.Coherent) :
    EndsAt (removeWithUsers bound report pointer) store := by
  induction bound generalizing pointer rest report store gone with
  | zero =>
      have short := path.length_le
      omega
  | succ bound induction =>
      refine EndsAt.bind (Ends.see _ store) fun uses between seen => ?_
      obtain ⟨rfl, rfl⟩ := gives_see_iff.1 seen
      refine EndsAt.bind (ensures_removeUsers (fun use member => ?_) takes coherent).1
        fun next left _ => drop_ends next pointer left
      intro gone' report' store' takes' coherent'
      obtain ⟨former, listed, same⟩ :
          ∃ former ∈ origin.usesOf pointer, former.user = use.user := by
        obtain ⟨linked, operand⟩ := coherent.exists_use_iff.1 ⟨use, member, rfl⟩
        obtain ⟨block, linked⟩ := Option.isSome_iff_exists.1 linked
        rw [takes.operands] at operand
        have linked := (takes.blockOf?_eq_some_iff.1 linked).1
        exact whole.exists_use_iff.2 ⟨Option.isSome_of_eq_some linked, operand⟩
      rw [← same]
      rcases erasable.store_or_element listed with ⟨-, unused, -⟩ | ⟨derives, head⟩
      · have short := path.length_le
        obtain ⟨bound, rfl⟩ := Nat.exists_eq_add_one_of_ne_zero (show bound ≠ 0 by omega)
        exact endsAt_removeWithUsers_of_unused (takes'.usesOf_eq_nil whole coherent' unused)
      · refine induction (.element derives.2 head path) (erasable.derived (.single derives)) ?_
          takes' coherent'
        simp only [List.length_cons] at enough ⊢
        omega

end Pass

end ShaderIR
