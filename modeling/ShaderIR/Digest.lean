import ShaderIR.Scalar

/-!
# Content digests

The 64-bit digest XXH64 with seed zero.  Input of at least 32 bytes is consumed
in stripes of four lanes; what is left is mixed in by words of eight bytes, at
most one word of four, and single bytes.
-/

namespace ShaderIR.Digest

/-- The first multiplier. -/
def prime1 : UInt64 := 11400714785074694791

/-- The second multiplier. -/
def prime2 : UInt64 := 14029467366897019727

/-- The third multiplier. -/
def prime3 : UInt64 := 1609587929392839161

/-- The fourth multiplier. -/
def prime4 : UInt64 := 9650029242287828579

/-- The fifth multiplier. -/
def prime5 : UInt64 := 2870177450012600261

/-- Rotate a word to the left by fewer than 64 positions. -/
def rotate (word count : UInt64) : UInt64 :=
  (word <<< count) ||| (word >>> (64 - count))

/-- The word read from at most eight bytes, least significant first. -/
def word (bytes : List UInt8) : UInt64 :=
  UInt64.ofNat (ofLittleEndian bytes)

/-- Mix a lane into an accumulator. -/
def round (accumulator lane : UInt64) : UInt64 :=
  rotate (accumulator + lane * prime2) 31 * prime1

/-- The four accumulators of the striped part. -/
structure Lanes where
  first : UInt64
  second : UInt64
  third : UInt64
  fourth : UInt64

/-- The accumulators before any input. -/
def Lanes.start : Lanes :=
  ⟨prime1 + prime2, prime2, 0, 0 - prime1⟩

/-- Mix one stripe of 32 bytes into the accumulators. -/
def Lanes.stripe (lanes : Lanes) (bytes : List UInt8) : Lanes :=
  ⟨round lanes.first (word (bytes.take 8)),
    round lanes.second (word ((bytes.drop 8).take 8)),
    round lanes.third (word ((bytes.drop 16).take 8)),
    round lanes.fourth (word ((bytes.drop 24).take 8))⟩

/-- Consume whole stripes and return what is left. -/
def Lanes.consume (lanes : Lanes) (bytes : List UInt8) : Lanes × List UInt8 :=
  if (bytes.drop 31).isEmpty then (lanes, bytes)
  else (lanes.stripe bytes).consume (bytes.drop 32)
termination_by bytes.length
decreasing_by
  simp_all
  omega

/-- Fold one accumulator into the digest. -/
def merge (digest lane : UInt64) : UInt64 :=
  (digest ^^^ round 0 lane) * prime1 + prime4

/-- Combine the accumulators. -/
def Lanes.combine (lanes : Lanes) : UInt64 :=
  let digest := rotate lanes.first 1 + rotate lanes.second 7 + rotate lanes.third 12 +
    rotate lanes.fourth 18
  merge (merge (merge (merge digest lanes.first) lanes.second) lanes.third) lanes.fourth

/-- Mix in one byte. -/
def mixByte (digest : UInt64) (byte : UInt8) : UInt64 :=
  rotate (digest ^^^ byte.toUInt64 * prime5) 11 * prime1

/-- Mix in what is left after the stripes: words of eight, a word of four, bytes. -/
def mixRest (digest : UInt64) (bytes : List UInt8) : UInt64 :=
  if 8 ≤ bytes.length then
    mixRest (rotate (digest ^^^ round 0 (word (bytes.take 8))) 27 * prime1 + prime4)
      (bytes.drop 8)
  else if 4 ≤ bytes.length then
    (bytes.drop 4).foldl mixByte
      (rotate (digest ^^^ word (bytes.take 4) * prime1) 23 * prime2 + prime3)
  else
    bytes.foldl mixByte digest
termination_by bytes.length
decreasing_by simp; omega

/-- Spread the bits of the digest. -/
def avalanche (digest : UInt64) : UInt64 :=
  let digest := (digest ^^^ (digest >>> 33)) * prime2
  let digest := (digest ^^^ (digest >>> 29)) * prime3
  digest ^^^ (digest >>> 32)

/-- The digest of some bytes. -/
def ofBytes (bytes : List UInt8) : UInt64 :=
  let length := UInt64.ofNat bytes.length
  if 32 ≤ bytes.length then
    let (lanes, rest) := Lanes.start.consume bytes
    avalanche (mixRest (lanes.combine + length) rest)
  else
    avalanche (mixRest (prime5 + length) bytes)

end ShaderIR.Digest
