import Mathlib.Data.Int.Notation
import Mathlib.Data.List.Basic
import Mathlib.Data.Nat.Notation

/-! # The control block of the codec

The codec works with logarithms. Its control block holds the tables of a field, the generator
polynomial of the code in logarithmic form and the parameters they were made from.
-/

namespace SourceCompanion.Fec

/-- The control block of the codec. Logarithms are numbers, with `nn` for that of zero. -/
structure Rs where
  mm : ℕ
  nn : ℕ
  alphaTo : List UInt8
  indexOf : List ℕ
  genpoly : List ℕ
  nroots : ℕ
  fcr : ℕ
  prim : ℕ
  iprim : ℕ
  pad : ℕ
  deriving DecidableEq, Repr

/-- A turn of the loop takes away at least one, so `x` turns are enough. -/
def modnnLoop (mm nn : ℕ) : ℕ → ℕ → ℕ
  | 0, x => x
  | turns + 1, x =>
    if x ≥ nn then
      let x := x - nn
      modnnLoop mm nn turns ((x >>> mm) + (x &&& nn))
    else x

namespace Rs

def modnn (rs : Rs) (x : ℕ) : ℕ := modnnLoop rs.mm rs.nn x x

def alpha (rs : Rs) (i : ℕ) : UInt8 := rs.alphaTo.getD i 0

def index (rs : Rs) (x : UInt8) : ℕ := rs.indexOf.getD x.toNat 0

/-- The special reserved value that encodes zero in logarithmic form. -/
def a0 (rs : Rs) : ℕ := rs.nn

end Rs

/-! ## Making the tables -/

structure Tables where
  sr : ℕ
  indexOf : List ℕ
  alphaTo : List UInt8

def nextPower (symsize gfpoly sr : ℕ) : ℕ :=
  let sr := sr <<< 1
  let sr := if sr &&& (1 <<< symsize) ≠ 0 then sr ^^^ gfpoly else sr
  sr &&& ((1 <<< symsize) - 1)

def Tables.enter (symsize gfpoly : ℕ) (t : Tables) (i : ℕ) : Tables where
  indexOf := t.indexOf.set t.sr i
  alphaTo := t.alphaTo.set i (UInt8.ofNat t.sr)
  sr := nextPower symsize gfpoly t.sr

/-- The lookup tables. Entries that are never written are zeros here. -/
def tables (symsize gfpoly : ℕ) : Tables :=
  let nn := (1 <<< symsize) - 1
  (List.range nn).foldl (Tables.enter symsize gfpoly) {
    sr := 1
    indexOf := (List.replicate (nn + 1) 0).set 0 nn
    alphaTo := (List.replicate (nn + 1) 0).set nn 0 }

/-! ## Making the generator polynomial -/

/-- Entries `n` to 1 of an array are changed in place, each with the one below it. -/
def downward (f : UInt8 → UInt8 → UInt8) (n : ℕ) (a : List UInt8) : List UInt8 :=
  (List.range n).reverse.foldl
    (fun a j => a.set (j + 1) (f (a.getD (j + 1) 0) (a.getD j 0))) a

def multiplyRoot (rs : Rs) (genpoly : List UInt8) (i : ℕ) : List UInt8 :=
  let root := rs.fcr * rs.prim + i * rs.prim
  let genpoly := genpoly.set (i + 1) 1
  let genpoly := downward (fun g below =>
    if g ≠ 0 then below ^^^ rs.alpha (rs.modnn (rs.index g + root)) else below) i genpoly
  genpoly.set 0 (rs.alpha (rs.modnn (rs.index (genpoly.getD 0 0) + root)))

def polyForm (rs : Rs) : List UInt8 :=
  (List.range rs.nroots).foldl (multiplyRoot rs) ((List.replicate (rs.nroots + 1) 0).set 0 1)

def intMax : ℕ := 2147483647

/-- The loop that looks for a multiple of `prim`. What the source does when the next number does
not fit an `int` is undefined. -/
def findIprim (prim nn : ℕ) : ℕ → ℕ → Option ℕ
  | 0, _ => none
  | turns + 1, iprim =>
    if iprim % prim ≠ 0 then
      if iprim + nn ≤ intMax then findIprim prim nn turns (iprim + nn) else none
    else some iprim

/-- The control block before it has its generator polynomial, once `iprim` is found. -/
def tableBlock (symsize gfpoly fcr prim nroots pad iprim : ℕ) : Rs where
  mm := symsize
  nn := (1 <<< symsize) - 1
  alphaTo := (tables symsize gfpoly).alphaTo
  indexOf := (tables symsize gfpoly).indexOf
  genpoly := []
  nroots := nroots
  fcr := fcr
  prim := prim
  iprim := iprim / prim
  pad := pad

/-- The polynomial is kept in logarithmic form for quicker encoding. -/
def withGenpoly (rs : Rs) : Rs := { rs with genpoly := (polyForm rs).map rs.index }

/-- The ways the initialisation ends without a control block: the first two return a null
pointer, the last is undefined. -/
inductive InitError where
  | parameters
  | notPrimitive
  | overflow
  deriving DecidableEq, Repr

/-- Initialise the codec. Allocation never fails here. -/
def initRsChar (symsize : ℤ) (gfpoly : ℕ) (fcr prim nroots pad : ℤ) : Except InitError Rs :=
  if symsize < 0 ∨ symsize > 8 then .error .parameters
  else if fcr < 0 ∨ fcr ≥ 1 <<< symsize.toNat then .error .parameters
  else if prim ≤ 0 ∨ prim ≥ 1 <<< symsize.toNat then .error .parameters
  else if nroots < 0 ∨ nroots ≥ 1 <<< symsize.toNat then .error .parameters
  else if pad < 0 ∨ pad ≥ (1 <<< symsize.toNat) - 1 - nroots then .error .parameters
  else if (tables symsize.toNat gfpoly).sr ≠ 1 then .error .notPrimitive
  else
    let nn := (1 <<< symsize.toNat) - 1
    -- Every turn adds `nn`, so no `int` is left after these.
    match findIprim prim.toNat nn (intMax / nn + 1) 1 with
    | none => .error .overflow
    | some iprim =>
      .ok <| withGenpoly <|
        tableBlock symsize.toNat gfpoly fcr.toNat prim.toNat nroots.toNat pad.toNat iprim

end SourceCompanion.Fec
