import Mathlib.Data.Finset.Card
import Mathlib.Data.Finset.Range
import Mathlib.Order.Interval.Finset.Nat
import ShaderIR.Proofs.Machine.Link

/-!
# The text of linked data

Linked data have the same text but for the digits of addresses, which are those of
different things.  Showing a value follows references to a depth that grows with the
number of references ever made, and the two heaps need not have made equally many.
What saves the day is that a text needs no more depth than there are references: in
a chain of references that ends, all are different.
-/

namespace ShaderIR.Machine

variable {heap heap' : Heap} {link : Link}

/-! ## Lines that show other addresses -/

/-- Two lines are the same but for the digits of addresses. -/
def Line.Alike (line line' : Line) : Prop :=
  line'.flatMap Glyph.letters = line.flatMap Glyph.letters

namespace Line.Alike

protected theorem rfl {line : Line} : Line.Alike line line :=
  Eq.refl _

theorem text {line line' : Line} (alike : Line.Alike line line') : line'.text = line.text :=
  congrArg String.ofList alike

theorem append
    {front front' back back' : Line}
    (first : Line.Alike front front')
    (second : Line.Alike back back') :
    Line.Alike (front ++ back) (front' ++ back') := by
  rw [Line.Alike, List.flatMap_append, List.flatMap_append, first, second]

theorem joined
    (separator : String)
    {lines lines' : List Line}
    (alike : List.Forall₂ Line.Alike lines lines') :
    Line.Alike (Line.joined separator lines) (Line.joined separator lines') := by
  unfold Line.joined
  induction alike with
  | nil => exact .rfl
  | cons first rest induction =>
      cases rest with
      | nil => simpa using first
      | cons =>
          rw [List.intercalate_cons_cons, List.intercalate_cons_cons]
          exact (first.append .rfl).append induction

theorem bracketed {parts parts' : List Line} (alike : List.Forall₂ Line.Alike parts parts') :
    Line.Alike (bracketed parts) (Machine.bracketed parts') :=
  (Line.Alike.rfl.append (joined " " alike)).append .rfl

theorem fillFormat
    (format : List Char)
    {texts texts' : List Line}
    (alike : List.Forall₂ Line.Alike texts texts') :
    Line.Alike (fillFormat format texts) (Machine.fillFormat format texts') := by
  induction format, texts using Machine.fillFormat.induct generalizing texts' with
  | case1 rest text texts induction =>
      cases alike with
      | cons first others => exact first.append (induction others)
  | case2 char rest texts other induction =>
      rw [Machine.fillFormat.eq_2 _ _ _ other, Machine.fillFormat.eq_2]
      · exact append (.rfl : Line.Alike [.char char] [.char char]) (induction alike)
      · rintro rest' text' texts'' rfl rfl rfl
        cases alike
        exact other _ _ _ rfl rfl rfl
  | case3 texts => simp [Machine.fillFormat, Line.Alike]

end Line.Alike

/-! ## Depth -/

/-- The text behind a reference when references are followed to a depth. -/
def followTo? (heap : Heap) (depth : Nat) : Datum → Option Line
  | .reference _ cell path => (heap.load? cell path).bind (formatTo? heap depth)
  | _ => none

theorem formatTo?_succ (heap : Heap) (depth : Nat) (datum : Datum) :
    formatTo? heap (depth + 1) datum = formatWith? heap (followTo? heap depth) datum := by
  rw [formatTo?]
  rfl

theorem formatTo?_reference (heap : Heap) (depth serial cell : Nat) (path : List Int) :
    formatTo? heap (depth + 1) (.reference serial cell path) =
      (heap.load? cell path).bind (formatTo? heap depth) := by
  rw [formatTo?_succ, formatWith?, followTo?]

mutual

theorem formatWith?_mono
    {follow follow' : Datum → Option Line}
    (more : ∀ datum line, follow datum = some line → follow' datum = some line)
    (datum : Datum)
    {line : Line}
    (found : formatWith? heap follow datum = some line) :
    formatWith? heap follow' datum = some line := by
  cases datum with
  | aggregate elements =>
      rw [formatWith?] at found ⊢
      rcases Option.bind_eq_some_iff.1 found with ⟨parts, partsFound, rest⟩
      rw [formatAllWith?_mono more elements partsFound]
      exact rest
  | reference serial cell path =>
      rw [formatWith?] at found ⊢
      exact more _ _ found
  | _ =>
      rw [formatWith?] at found ⊢
      exact found

theorem formatAllWith?_mono
    {follow follow' : Datum → Option Line}
    (more : ∀ datum line, follow datum = some line → follow' datum = some line)
    (data : List Datum)
    {lines : List Line}
    (found : formatAllWith? heap follow data = some lines) :
    formatAllWith? heap follow' data = some lines := by
  cases data with
  | nil =>
      rw [formatAllWith?] at found ⊢
      exact found
  | cons first rest =>
      rw [formatAllWith?] at found ⊢
      rcases Option.bind_eq_some_iff.1 found with ⟨line, lineFound, found⟩
      rcases Option.bind_eq_some_iff.1 found with ⟨others, othersFound, equal⟩
      rw [formatWith?_mono more first lineFound, Option.bind_eq_bind, Option.bind_some,
        formatAllWith?_mono more rest othersFound]
      exact equal

end

theorem formatTo?_mono
    {depth depth' : Nat}
    (more : depth ≤ depth')
    {datum : Datum}
    {line : Line}
    (found : formatTo? heap depth datum = some line) :
    formatTo? heap depth' datum = some line := by
  induction depth generalizing depth' datum line with
  | zero =>
      rw [formatTo?] at found
      cases found
  | succ depth induction =>
      cases depth' with
      | zero => omega
      | succ depth' =>
          rw [formatTo?_succ] at found ⊢
          refine formatWith?_mono ?_ datum found
          intro reference line followed
          cases reference with
          | reference serial cell path =>
              rw [followTo?] at followed ⊢
              rcases Option.bind_eq_some_iff.1 followed with ⟨content, held, shown⟩
              rw [held]
              exact induction (by omega) shown
          | _ => cases followed

/-! ## Texts on both sides -/

mutual

/-- Inside others, linked data are shown alike: a handle is shown as an address. -/
theorem nestedText_linked {datum datum' : Datum} (linked : Linked link datum datum') :
    Line.Alike (nestedText datum) (nestedText datum') := by
  cases linked with
  | aggregate elements =>
      rw [nestedText, nestedText]
      exact .bracketed (nestedTexts_linked elements)
  | reference | rayQuery =>
      rw [nestedText, nestedText]
      rfl
  | _ => exact .rfl

theorem nestedTexts_linked {data data' : List Datum} (linked : AllLinked link data data') :
    List.Forall₂ Line.Alike (nestedTexts data) (nestedTexts data') := by
  cases linked with
  | nil => exact .nil
  | cons first rest =>
      rw [nestedTexts, nestedTexts]
      exact .cons (nestedText_linked first) (nestedTexts_linked rest)

end

theorem plainText?_linked
    (heaps : link.Heaps heap heap')
    {datum datum' : Datum}
    (linked : Linked link datum datum')
    {line : Line}
    (found : plainText? heap datum = some line) :
    ∃ line', plainText? heap' datum' = some line' ∧ Line.Alike line line' := by
  cases linked with
  | buffer address =>
      rw [plainText?] at found ⊢
      obtain ⟨elements, elementsFound, equal⟩ := Option.bind_eq_some_iff.1 found
      cases equal
      obtain ⟨elements', elementsFound', linked⟩ := heaps.buffer elementsFound
      exact ⟨_, Option.bind_eq_some_iff.2 ⟨elements', elementsFound', rfl⟩,
        (Line.Alike.rfl.append (.bracketed (nestedTexts_linked linked))).append .rfl⟩
  | rayQuery queries =>
      rw [plainText?] at found ⊢
      obtain ⟨state, held, held'⟩ := heaps.query queries
      rw [held] at found
      exact ⟨line, by rwa [held'], .rfl⟩
  | reference cells references places =>
      cases found
      exact ⟨_, rfl, rfl⟩
  | aggregate elements =>
      cases found
      exact ⟨_, rfl, nestedText_linked (.aggregate elements)⟩
  | _ => exact ⟨line, found, .rfl⟩

mutual

theorem formatWith?_linked
    (heaps : link.Heaps heap heap')
    {follow follow' : Datum → Option Line}
    (more : ∀ datum datum' line, Linked link datum datum' → follow datum = some line →
      ∃ line', follow' datum' = some line' ∧ Line.Alike line line')
    {datum datum' : Datum}
    (linked : Linked link datum datum')
    {line : Line}
    (found : formatWith? heap follow datum = some line) :
    ∃ line', formatWith? heap' follow' datum' = some line' ∧ Line.Alike line line' := by
  have plain : plainText? heap datum = some line →
      ∃ line', plainText? heap' datum' = some line' ∧ Line.Alike line line' :=
    plainText?_linked heaps linked
  have follows := more datum datum' line linked
  cases linked with
  | aggregate elements =>
      rw [formatWith?] at found ⊢
      obtain ⟨parts, partsFound, equal⟩ := Option.bind_eq_some_iff.1 found
      cases equal
      obtain ⟨parts', partsFound', alike⟩ := formatAllWith?_linked heaps more elements partsFound
      exact ⟨_, Option.bind_eq_some_iff.2 ⟨parts', partsFound', rfl⟩,
        (Line.Alike.rfl.append (.joined ", " alike)).append .rfl⟩
  | reference cells references places =>
      rw [formatWith?] at found ⊢
      exact follows found
  | _ =>
      rw [formatWith?] at found ⊢
      exact plain found

theorem formatAllWith?_linked
    (heaps : link.Heaps heap heap')
    {follow follow' : Datum → Option Line}
    (more : ∀ datum datum' line, Linked link datum datum' → follow datum = some line →
      ∃ line', follow' datum' = some line' ∧ Line.Alike line line')
    {data data' : List Datum}
    (linked : AllLinked link data data')
    {lines : List Line}
    (found : formatAllWith? heap follow data = some lines) :
    ∃ lines', formatAllWith? heap' follow' data' = some lines' ∧
      List.Forall₂ Line.Alike lines lines' := by
  cases linked with
  | nil =>
      rw [formatAllWith?] at found ⊢
      cases found
      exact ⟨[], rfl, .nil⟩
  | cons first rest =>
      rw [formatAllWith?] at found ⊢
      obtain ⟨line, lineFound, found⟩ := Option.bind_eq_some_iff.1 found
      obtain ⟨others, othersFound, equal⟩ := Option.bind_eq_some_iff.1 found
      cases equal
      obtain ⟨line', lineFound', alike⟩ := formatWith?_linked heaps more first lineFound
      obtain ⟨others', othersFound', others⟩ := formatAllWith?_linked heaps more rest othersFound
      exact ⟨line' :: others', Option.bind_eq_some_iff.2 ⟨line', lineFound',
        Option.bind_eq_some_iff.2 ⟨others', othersFound', rfl⟩⟩, .cons alike others⟩

end

/-- Linked data are shown alike when references are followed to one depth. -/
theorem formatTo?_linked
    (heaps : link.Heaps heap heap')
    {depth : Nat}
    {datum datum' : Datum}
    (linked : Linked link datum datum')
    {line : Line}
    (found : formatTo? heap depth datum = some line) :
    ∃ line', formatTo? heap' depth datum' = some line' ∧ Line.Alike line line' := by
  induction depth generalizing datum datum' line with
  | zero =>
      rw [formatTo?] at found
      cases found
  | succ depth induction =>
      rw [formatTo?_succ] at found ⊢
      refine formatWith?_linked heaps ?_ linked found
      intro reference reference' line linked followed
      cases linked with
      | reference cells references places =>
          rw [followTo?] at followed ⊢
          obtain ⟨content, held, shown⟩ := Option.bind_eq_some_iff.1 followed
          obtain ⟨content', held', linked⟩ := heaps.load? cells held
          rw [held']
          exact induction linked shown
      | _ => cases followed

/-! ## Chains of references -/

/-- Reading the second of two linked data, the first one can be read as well. -/
theorem Linked.read?_right
    {left right : Datum}
    (linked : Linked link left right)
    {path : List Int}
    {part' : Datum}
    (found : right.read? path = some part') :
    ∃ part, Linked link part part' := by
  induction path generalizing left right with
  | nil =>
      rw [Datum.read?] at found
      cases found
      exact ⟨left, linked⟩
  | cons index path induction =>
      cases linked with
      | @aggregate elements elements' all =>
          rw [Datum.read?] at found
          rcases Option.bind_eq_some_iff.1 found with ⟨element', elementFound, rest⟩
          have flipped : List.Forall₂ (fun element' element => Linked link element element')
              elements' elements :=
            all.flip
          unfold Datum.elementAt? at elementFound
          split at elementFound
          · cases elementFound
          · rcases forall₂_getElem? flipped elementFound with ⟨element, -, linkedElement⟩
            exact induction linkedElement rest
      | _ => simp [Datum.read?] at found

/-- A datum of the second heap that stands for one of the first heap. -/
def Link.Covers (link : Link) (datum' : Datum) : Prop :=
  ∃ datum, Linked link datum datum'

theorem Link.Covers.load?
    (heaps : link.Heaps heap heap')
    {serial cell : Nat}
    {path : List Int}
    (covered : link.Covers (.reference serial cell path))
    {content : Datum}
    (found : heap'.load? cell path = some content) :
    link.Covers content := by
  rcases covered with ⟨_, linked⟩
  cases linked with
  | reference cells references places =>
      rcases heaps.cell cells with ⟨whole, whole', -, held', linkedWhole⟩
      rw [Heap.load?, held'] at found
      exact linkedWhole.read?_right found

mutual

/-- When more depth gives a datum a text, that is because of a reference in it. -/
theorem exists_reference_of_format
    {depth depth' : Nat}
    (datum : Datum)
    (covered : link.Covers datum)
    (shown : (formatWith? heap (followTo? heap depth) datum).isSome)
    (unshown : formatWith? heap (followTo? heap depth') datum = none) :
    ∃ serial cell path, link.Covers (.reference serial cell path) ∧
      (followTo? heap depth (.reference serial cell path)).isSome ∧
      followTo? heap depth' (.reference serial cell path) = none := by
  cases datum with
  | aggregate elements =>
      rw [formatWith?] at shown unshown
      rcases covered with ⟨_, linked⟩
      cases linked with
      | aggregate all =>
          have coveredAll : ∀ element ∈ elements, link.Covers element := by
            intro element member
            rcases List.getElem?_of_mem member with ⟨position, found⟩
            rcases forall₂_getElem? all.flip found with ⟨element', -, linked⟩
            exact ⟨element', linked⟩
          refine exists_reference_of_formatAll elements coveredAll ?_ ?_
          · rcases Option.isSome_iff_exists.1 shown with ⟨text, found⟩
            rcases Option.bind_eq_some_iff.1 found with ⟨parts, partsFound, -⟩
            exact Option.isSome_iff_exists.2 ⟨parts, partsFound⟩
          · refine Option.eq_none_iff_forall_ne_some.2 fun parts partsFound => ?_
            rw [partsFound] at unshown
            cases unshown
  | reference serial cell path =>
      rw [formatWith?] at shown unshown
      exact ⟨serial, cell, path, covered, shown, unshown⟩
  | _ =>
      rw [formatWith?] at shown unshown
      rw [unshown] at shown
      cases shown

theorem exists_reference_of_formatAll
    {depth depth' : Nat}
    (data : List Datum)
    (covered : ∀ datum ∈ data, link.Covers datum)
    (shown : (formatAllWith? heap (followTo? heap depth) data).isSome)
    (unshown : formatAllWith? heap (followTo? heap depth') data = none) :
    ∃ serial cell path, link.Covers (.reference serial cell path) ∧
      (followTo? heap depth (.reference serial cell path)).isSome ∧
      followTo? heap depth' (.reference serial cell path) = none := by
  cases data with
  | nil =>
      rw [formatAllWith?] at unshown
      cases unshown
  | cons first rest =>
      rw [formatAllWith?] at shown unshown
      rcases Option.isSome_iff_exists.1 shown with ⟨texts, found⟩
      rcases Option.bind_eq_some_iff.1 found with ⟨text, textFound, found⟩
      rcases Option.bind_eq_some_iff.1 found with ⟨others, othersFound, -⟩
      cases firstFound : formatWith? heap (followTo? heap depth') first with
      | none =>
          exact exists_reference_of_format first (covered first List.mem_cons_self)
            (by simp [textFound]) firstFound
      | some text' =>
          have restUnshown : formatAllWith? heap (followTo? heap depth') rest = none := by
            refine Option.eq_none_iff_forall_ne_some.2 fun parts partsFound => ?_
            rw [firstFound, partsFound] at unshown
            cases unshown
          exact exists_reference_of_formatAll rest
            (fun datum member => covered datum (List.mem_cons_of_mem _ member))
            (by simp [othersFound]) restUnshown

end

/-- A reference that has a text from one depth on, and none before. -/
def Shown (heap : Heap) (depth : Nat) (reference : Datum) : Prop :=
  (formatTo? heap (depth + 1) reference).isSome ∧ formatTo? heap depth reference = none

/-- What a reference with a deep text refers to holds one with a text less deep. -/
theorem exists_shown_pred
    (heaps : link.Heaps heap heap')
    {depth serial cell : Nat}
    {path : List Int}
    (covered : link.Covers (.reference serial cell path))
    (shown : Shown heap' (depth + 2) (.reference serial cell path)) :
    ∃ serial cell path, link.Covers (.reference serial cell path) ∧
      Shown heap' (depth + 1) (.reference serial cell path) := by
  have deep := shown.1
  have shallow := shown.2
  rw [formatTo?_reference] at deep shallow
  cases held : heap'.load? cell path with
  | none =>
      rw [held] at deep
      cases deep
  | some content =>
      rw [held, Option.bind_some, formatTo?_succ] at deep shallow
      rcases exists_reference_of_format content (Link.Covers.load? heaps covered held) deep shallow
        with ⟨serial', cell', path', covered', shown', unshown'⟩
      refine ⟨serial', cell', path', covered', ?_, ?_⟩
      · rw [formatTo?_reference]
        exact shown'
      · rw [formatTo?_reference]
        exact unshown'

theorem exists_shown_of_le
    (heaps : link.Heaps heap heap')
    {depth lower serial cell : Nat}
    {path : List Int}
    (covered : link.Covers (.reference serial cell path))
    (shown : Shown heap' (depth + 1) (.reference serial cell path))
    (below : lower ≤ depth) :
    ∃ serial cell path, link.Covers (.reference serial cell path) ∧
      Shown heap' (lower + 1) (.reference serial cell path) := by
  induction depth generalizing serial cell path with
  | zero =>
      have equal : lower = 0 := by omega
      subst equal
      exact ⟨serial, cell, path, covered, shown⟩
  | succ depth induction =>
      by_cases equal : lower = depth + 1
      · subst equal
        exact ⟨serial, cell, path, covered, shown⟩
      · rcases exists_shown_pred heaps covered shown with ⟨_, _, _, covered', shown'⟩
        exact induction covered' shown' (by omega)

/-- One serial number has one place, so it has its text from one depth on. -/
theorem shown_unique
    (heaps : link.Heaps heap heap')
    {depth depth' serial cell cell' : Nat}
    {path path' : List Int}
    (covered : link.Covers (.reference serial cell path))
    (covered' : link.Covers (.reference serial cell' path'))
    (shown : Shown heap' depth (.reference serial cell path))
    (shown' : Shown heap' depth' (.reference serial cell' path')) :
    depth = depth' := by
  have samePlace : (cell, path) = (cell', path') := by
    rcases covered with ⟨_, linked⟩
    rcases covered' with ⟨_, linked'⟩
    cases linked with
    | reference _ _ places =>
        cases linked' with
        | reference _ _ places' => exact heaps.place places places'
  cases samePlace
  have notAbove {low high : Nat} (lowShown : Shown heap' low (.reference serial cell path))
      (highShown : Shown heap' high (.reference serial cell path)) : ¬low < high := by
    intro less
    rcases Option.isSome_iff_exists.1 lowShown.1 with ⟨text, found⟩
    have contradiction := formatTo?_mono (Nat.succ_le_of_lt less) found
    rw [highShown.2] at contradiction
    cases contradiction
  have first := notAbove shown shown'
  have second := notAbove shown' shown
  omega

/-- A chain of different references is no longer than the number of references made. -/
theorem shown_le_serial
    (heaps : link.Heaps heap heap')
    {depth serial cell : Nat}
    {path : List Int}
    (covered : link.Covers (.reference serial cell path))
    (shown : Shown heap' (depth + 1) (.reference serial cell path)) :
    depth < heap'.serial := by
  have chain : ∀ lower : Nat, lower ≤ depth → ∃ serial cell path,
      link.Covers (.reference serial cell path) ∧
        Shown heap' (lower + 1) (.reference serial cell path) :=
    fun lower below => exists_shown_of_le heaps covered shown below
  choose! serials cells paths chained using chain
  have inside : ∀ lower ∈ Finset.range (depth + 1),
      serials lower ∈ Finset.range heap'.serial := by
    intro lower member
    have below : lower ≤ depth := by
      have := Finset.mem_range.1 member
      omega
    rcases (chained lower below).1 with ⟨_, linked⟩
    cases linked with
    | reference _ _ places => exact Finset.mem_range.2 (heaps.serial places)
  have injective : Set.InjOn serials (Finset.range (depth + 1)) := by
    intro lower member lower' member' equal
    have below : lower ≤ depth := by
      have := Finset.mem_range.1 (Finset.mem_coe.1 member)
      omega
    have below' : lower' ≤ depth := by
      have := Finset.mem_range.1 (Finset.mem_coe.1 member')
      omega
    have first := chained lower below
    have second := chained lower' below'
    rw [← equal] at second
    have same := shown_unique heaps first.1 second.1 first.2 second.2
    omega
  have counted := Finset.card_le_card_of_injOn serials inside injective
  rw [Finset.card_range, Finset.card_range] at counted
  omega

/-- The depth at which a reference gets its text. -/
theorem exists_shown
    {depth serial cell : Nat}
    {path : List Int}
    (found : (formatTo? heap depth (.reference serial cell path)).isSome) :
    ∃ least, least < depth ∧ Shown heap (least + 1) (.reference serial cell path) := by
  induction depth with
  | zero =>
      rw [formatTo?] at found
      cases found
  | succ depth induction =>
      cases shallow : formatTo? heap depth (.reference serial cell path) with
      | some text =>
          rcases induction (by simp [shallow]) with ⟨least, below, shown⟩
          exact ⟨least, by omega, shown⟩
      | none =>
          cases depth with
          | zero =>
              rw [formatTo?_reference] at found
              cases held : heap.load? cell path with
              | none => simp [held] at found
              | some content => simp [held, formatTo?] at found
          | succ depth => exact ⟨depth, by omega, found, shallow⟩

/-- Linked data are shown alike. -/
theorem formatLine?_linked
    (heaps : link.Heaps heap heap')
    {datum datum' : Datum}
    (linked : Linked link datum datum')
    {line : Line}
    (found : formatLine? heap datum = some line) :
    ∃ line', formatLine? heap' datum' = some line' ∧ Line.Alike line line' := by
  obtain ⟨line', deep, alike⟩ := formatTo?_linked heaps linked found
  refine ⟨line', ?_, alike⟩
  unfold formatLine?
  cases shallow : formatTo? heap' (heap'.serial + 2) datum' with
  | some line'' =>
      have first := formatTo?_mono (Nat.le_max_left (heap.serial + 2) (heap'.serial + 2)) deep
      have second := formatTo?_mono (Nat.le_max_right (heap.serial + 2) (heap'.serial + 2)) shallow
      rw [← first, ← second]
  | none =>
      -- A reference in the datum would need more depth than there are references.
      rw [formatTo?_succ] at shallow
      have deep : (formatWith? heap' (followTo? heap' (heap.serial + 1)) datum').isSome := by
        rw [← formatTo?_succ, deep]
        rfl
      rcases exists_reference_of_format datum' ⟨datum, linked⟩ deep shallow with
        ⟨serial, cell, path, covered, shown, unshown⟩
      have shown : (formatTo? heap' (heap.serial + 2) (.reference serial cell path)).isSome := by
        rw [formatTo?_reference]
        exact shown
      rcases exists_shown shown with ⟨least, -, shownLeast⟩
      have below := shown_le_serial heaps covered shownLeast
      rcases Option.isSome_iff_exists.1 shownLeast.1 with ⟨line'', found'⟩
      have contradiction := formatTo?_mono (show least + 2 ≤ heap'.serial + 2 by omega) found'
      rw [formatTo?_reference] at contradiction
      rw [followTo?, contradiction] at unshown
      cases unshown

theorem formatLines?_linked
    (heaps : link.Heaps heap heap')
    {values values' : List Datum}
    (linked : AllLinked link values values')
    {lines : List Line}
    (found : values.mapM (formatLine? heap) = some lines) :
    ∃ lines', values'.mapM (formatLine? heap') = some lines' ∧
      List.Forall₂ Line.Alike lines lines' := by
  induction linked generalizing lines with
  | nil =>
      cases found
      exact ⟨[], rfl, .nil⟩
  | cons first _ induction =>
      rw [List.mapM_cons] at found ⊢
      obtain ⟨line, lineFound, found⟩ := Option.bind_eq_some_iff.1 found
      obtain ⟨others, othersFound, equal⟩ := Option.bind_eq_some_iff.1 found
      cases equal
      obtain ⟨line', lineFound', alike⟩ := formatLine?_linked heaps first lineFound
      obtain ⟨others', othersFound', others⟩ := induction othersFound
      exact ⟨line' :: others', Option.bind_eq_some_iff.2 ⟨line', lineFound',
        Option.bind_eq_some_iff.2 ⟨others', othersFound', rfl⟩⟩, .cons alike others⟩

/-- Print instructions write lines that are alike for linked values. -/
theorem printLine?_linked
    (heaps : link.Heaps heap heap')
    (format : String)
    {values values' : List Datum}
    (linked : AllLinked link values values')
    {line : Line}
    (found : printLine? heap format values = some line) :
    ∃ line', printLine? heap' format values' = some line' ∧ Line.Alike line line' := by
  obtain ⟨texts, textsFound, equal⟩ := Option.bind_eq_some_iff.1 found
  cases equal
  obtain ⟨texts', textsFound', alike⟩ :=
    formatLines?_linked heaps (List.forall₂_take _ linked) textsFound
  exact ⟨_, Option.bind_eq_some_iff.2 ⟨texts', textsFound', rfl⟩, .fillFormat _ alike⟩

end ShaderIR.Machine
