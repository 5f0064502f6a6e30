import SourceCompanion.Fec.InitRs

/-! # The decoder

The syndromes of the received word give a recurrence, whose polynomial locates the errors and
the erasures. The errors are evaluated at their places and taken out.
-/

namespace SourceCompanion.Fec

/-- A product with logarithms, or nothing if one of the factors is zero. -/
def addProduct (rs : Rs) (acc : UInt8) (x y : ℕ) : UInt8 :=
  if x ≠ rs.a0 ∧ y ≠ rs.a0 then acc ^^^ rs.alpha (rs.modnn (x + y)) else acc

/-! ## Syndromes -/

def syndromeStep (rs : Rs) (s : List UInt8) (data : UInt8) : List UInt8 :=
  s.mapIdx fun i x =>
    if x = 0 then data
    else data ^^^ rs.alpha (rs.modnn (rs.index x + (rs.fcr + i) * rs.prim))

def syndromes (rs : Rs) (data : List UInt8) : List UInt8 :=
  ((data.take (rs.nn - rs.pad)).drop 1).foldl (syndromeStep rs)
    (List.replicate rs.nroots (data.getD 0 0))

/-! ## The locator of errors and erasures -/

def eraseStep (rs : Rs) (erasPos : List ℕ) (lambda : List UInt8) (i : ℕ) : List UInt8 :=
  let u := rs.modnn (rs.prim * (rs.nn - 1 - erasPos.getD i 0))
  downward (fun x below =>
    let tmp := rs.index below
    if tmp ≠ rs.a0 then x ^^^ rs.alpha (rs.modnn (u + tmp)) else x) (i + 1) lambda

def erasureLocator (rs : Rs) (erasPos : List ℕ) : List UInt8 :=
  let lambda := (List.replicate (rs.nroots + 1) 0).set 0 1
  if erasPos.length > 0 then
    (List.range' 1 (erasPos.length - 1)).foldl (eraseStep rs erasPos)
      (lambda.set 1 (rs.alpha (rs.modnn (rs.prim * (rs.nn - 1 - erasPos.getD 0 0)))))
  else lambda

/-- The state of the search for the locator. The earlier polynomial is in logarithmic form. -/
structure Search where
  lambda : List UInt8
  b : List ℕ
  el : ℕ
  deriving DecidableEq, Repr

/-- How far the locator misses the next syndrome. The syndromes are in logarithmic form. -/
def discrR (rs : Rs) (s : List ℕ) (lambda : List UInt8) (r : ℕ) : UInt8 :=
  (List.range r).foldl (fun acc i =>
    if lambda.getD i 0 ≠ 0 ∧ s.getD (r - i - 1) rs.a0 ≠ rs.a0 then
      acc ^^^ rs.alpha (rs.modnn (rs.index (lambda.getD i 0) + s.getD (r - i - 1) rs.a0))
    else acc) 0

def berlekampMasseyStep (rs : Rs) (s : List ℕ) (noEras : ℕ) (q : Search) (r : ℕ) : Search :=
  let discr := rs.index (discrR rs s q.lambda r)
  if discr = rs.a0 then { q with b := rs.a0 :: q.b.take rs.nroots }
  else
    let t := q.lambda.take 1 ++ (List.range rs.nroots).map fun i =>
      if q.b.getD i rs.a0 ≠ rs.a0 then
        q.lambda.getD (i + 1) 0 ^^^ rs.alpha (rs.modnn (discr + q.b.getD i rs.a0))
      else q.lambda.getD (i + 1) 0
    if 2 * q.el ≤ r + noEras - 1 then {
        lambda := t
        b := q.lambda.map fun x => if x = 0 then rs.a0 else rs.modnn (rs.index x + rs.nn - discr)
        el := r + noEras - q.el }
    else { q with lambda := t, b := rs.a0 :: q.b.take rs.nroots }

def berlekampMassey (rs : Rs) (s : List ℕ) (erasPos : List ℕ) : Search :=
  let noEras := erasPos.length
  let lambda := erasureLocator rs erasPos
  (List.range' (noEras + 1) (rs.nroots - noEras)).foldl (berlekampMasseyStep rs s noEras)
    { lambda, b := lambda.map rs.index, el := noEras }

/-! ## The places -/

def degLambda (rs : Rs) (lambda : List ℕ) : ℕ :=
  (List.range (rs.nroots + 1)).foldl
    (fun deg i => if lambda.getD i rs.a0 ≠ rs.a0 then i else deg) 0

/-- The Chien search over the numbers from `i` on, with the terms of the locator at the number
before. It yields the roots and the places found. -/
def chienSearch (rs : Rs) (deg : ℕ) : ℕ → ℕ → ℕ → List ℕ → ℕ → List (ℕ × ℕ)
  | 0, _, _, _, _ => []
  | turns + 1, i, k, reg, count =>
    let reg := reg.mapIdx fun j x =>
      if 1 ≤ j ∧ j ≤ deg ∧ x ≠ rs.a0 then rs.modnn (x + j) else x
    let q := (List.range deg).reverse.foldl (fun q j =>
      if reg.getD (j + 1) rs.a0 ≠ rs.a0 then q ^^^ rs.alpha (reg.getD (j + 1) rs.a0) else q) 1
    if q ≠ 0 then chienSearch rs deg turns (i + 1) (rs.modnn (k + rs.iprim)) reg count
    else if count + 1 = deg then [(i, k)]
    else (i, k) :: chienSearch rs deg turns (i + 1) (rs.modnn (k + rs.iprim)) reg (count + 1)

/-! ## The values of the errors -/

def errorEvaluator (rs : Rs) (s lambda : List ℕ) (deg : ℕ) : List ℕ :=
  (List.range deg).map fun i =>
    rs.index ((List.range (i + 1)).reverse.foldl
      (fun acc j => addProduct rs acc (s.getD (i - j) rs.a0) (lambda.getD j rs.a0)) 0)

/-- A polynomial of logarithms at a power of the indeterminate, over some of its terms. -/
def evaluate (rs : Rs) (p : List ℕ) (terms : List (ℕ × ℕ)) (root : ℕ) : UInt8 :=
  terms.foldl (fun acc (j, i) =>
    if p.getD j rs.a0 ≠ rs.a0 then acc ^^^ rs.alpha (rs.modnn (p.getD j rs.a0 + i * root))
    else acc) 0

def applyError (rs : Rs) (lambda omega : List ℕ) (deg : ℕ) (data : List UInt8)
    (found : ℕ × ℕ) : List UInt8 :=
  let root := found.1
  let loc := found.2
  let num1 := evaluate rs omega ((List.range deg).reverse.map fun i => (i, i)) root
  -- The root is at most `nn`, so the number is not negative.
  let num2 := rs.alpha (rs.modnn (root * rs.fcr + rs.nn - root))
  -- The odd terms, with one power less each, are the formal derivative.
  let den := evaluate rs lambda
    ((List.range (min deg (rs.nroots - 1) / 2 + 1)).reverse.map fun i => (2 * i + 1, 2 * i)) root
  if num1 ≠ 0 ∧ loc ≥ rs.pad then
    data.set (loc - rs.pad) (data.getD (loc - rs.pad) 0 ^^^
      rs.alpha (rs.modnn (rs.index num1 + rs.index num2 + rs.nn - rs.index den)))
  else data

/-- What the decoder leaves: the data, its return value and the places it found. -/
structure Decoded where
  data : List UInt8
  count : ℤ
  loc : List ℕ
  deriving DecidableEq, Repr

/-- What the decoder relies on. With anything else the source leaves its arrays. -/
structure InBounds (rs : Rs) (data : List UInt8) (erasPos : List ℕ) : Prop where
  nroots_pos : 1 ≤ rs.nroots
  length : data.length = rs.nn - rs.pad
  few : erasPos.length ≤ rs.nroots
  lt : ∀ p ∈ erasPos, p < rs.nn

def decodeRsChar (rs : Rs) (data : List UInt8) (erasPos : List ℕ) : Decoded :=
  let s := syndromes rs data
  if s.foldl (· ||| ·) 0 = 0 then { data, count := 0, loc := [] }
  else
    let s := s.map rs.index
    let lambda := (berlekampMassey rs s erasPos).lambda.map rs.index
    let deg := degLambda rs lambda
    let found := chienSearch rs deg rs.nn 1 (rs.iprim - 1) lambda 0
    if deg ≠ found.length then { data, count := -1, loc := [] }
    else
      let omega := errorEvaluator rs s lambda deg
      { data := found.reverse.foldl (applyError rs lambda omega deg) data
        count := found.length
        loc := found.map (·.2) }

end SourceCompanion.Fec
