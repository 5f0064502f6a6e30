import Mathlib.Data.Nat.Notation
import Mathlib.Data.List.Basic

/-! # Bit-serial checksums

A register of `w` bits takes a message bit by bit, most significant bit first. The register is
linear in its state and in the message. So a block of bits may be taken at once with a table,
and for a polynomial with constant term a burst no longer than the register is always seen.
-/

namespace SourceCompanion.Crc

/-! ## Leading bits -/

section

variable {v w : ℕ}

/-- The first `k` bits, most significant first. Zeros follow the last bit. -/
def topBits : ℕ → BitVec w → List Bool
  | 0, _ => []
  | k + 1, s => s.msb :: topBits k (s <<< 1)

@[simp] theorem length_topBits (k : ℕ) (s : BitVec w) : (topBits k s).length = k := by
  induction k generalizing s with
  | zero => rfl
  | succ k ih => simp [topBits, ih]

@[simp] theorem topBits_zero (k : ℕ) : topBits k 0#w = List.replicate k false := by
  induction k with
  | zero => rfl
  | succ k ih => simpa [topBits, List.replicate_succ] using ih

theorem topBits_congr {k : ℕ} {s : BitVec v} {t : BitVec w}
    (h : ∀ i < k, s.getMsbD i = t.getMsbD i) : topBits k s = topBits k t := by
  induction k generalizing s t with
  | zero => rfl
  | succ k ih =>
    have hhead : s.msb = t.msb := by
      simpa only [BitVec.msb_eq_getMsbD_zero] using h 0 (by omega)
    have htail : topBits k (s <<< 1) = topBits k (t <<< 1) := ih fun i hi => by
      simpa only [BitVec.getMsbD_shiftLeft] using h (i + 1) (by omega)
    rw [topBits, topBits, hhead, htail]

theorem getMsbD_of_topBits_eq {k : ℕ} {s : BitVec v} {t : BitVec w}
    (h : topBits k s = topBits k t) : ∀ i < k, s.getMsbD i = t.getMsbD i := by
  induction k generalizing s t with
  | zero => intro i hi; omega
  | succ k ih =>
    obtain ⟨hhead, htail⟩ := List.cons.inj h
    rintro (_ | i) hi
    · simpa only [BitVec.msb_eq_getMsbD_zero] using hhead
    · simpa only [BitVec.getMsbD_shiftLeft] using ih htail i (by omega)

theorem topBits_injective : Function.Injective (topBits w : BitVec w → List Bool) :=
  fun _ _ h => BitVec.eq_of_getMsbD_eq fun i hi => getMsbD_of_topBits_eq h i hi

theorem topBits_add (j k : ℕ) (s : BitVec w) :
    topBits (j + k) s = topBits j s ++ topBits k (s <<< j) := by
  induction j generalizing s with
  | zero => simp [topBits]
  | succ j ih =>
    rw [Nat.succ_add, topBits, topBits, ih, List.cons_append, Nat.add_comm j 1,
      BitVec.shiftLeft_add]

theorem zipWith_topBits (k : ℕ) (s t : BitVec w) :
    List.zipWith xor (topBits k s) (topBits k t) = topBits k (s ^^^ t) := by
  induction k generalizing s t with
  | zero => rfl
  | succ k ih =>
    simp only [topBits, List.zipWith_cons_cons, ih, BitVec.msb_xor,
      BitVec.shiftLeft_xor_distrib]

theorem topBits_high {k : ℕ} (hk : k ≤ w) (s : BitVec w) :
    topBits k ((s >>> (w - k)).setWidth k) = topBits k s := by
  refine topBits_congr fun i hi => ?_
  have hw : i + w - k < w := by omega
  have hlow : ¬i + w - k < w - k := by omega
  have hi' : i + w - k - (w - k) = i := by omega
  simp [BitVec.getMsbD_ushiftRight, hw, hlow, hi', Nat.sub_eq_zero_of_le hk]

theorem topBits_low {k : ℕ} (hk : k ≤ w) (s : BitVec w) :
    topBits k (s.setWidth k) = topBits k (s <<< (w - k)) := by
  refine topBits_congr fun i _ => ?_
  simp [Nat.sub_eq_zero_of_le hk, Nat.add_sub_assoc hk]

end

/-! ## The register -/

section

variable {w : ℕ} (g : BitVec w)

def feedback (b : Bool) : BitVec w := if b then g else 0#w

/-- The register moves up by one place. The bit that leaves it and the bit of the message
decide whether the polynomial is added. -/
def bitStep (s : BitVec w) (b : Bool) : BitVec w := (s <<< 1) ^^^ feedback g (s.msb ^^ b)

/-- The register after a message. -/
def serial (s : BitVec w) (bits : List Bool) : BitVec w := bits.foldl (bitStep g) s

@[simp] theorem serial_nil (s : BitVec w) : serial g s [] = s := rfl

@[simp] theorem serial_cons (s : BitVec w) (b : Bool) (bits : List Bool) :
    serial g s (b :: bits) = serial g (bitStep g s b) bits := rfl

theorem serial_append (s : BitVec w) (bs cs : List Bool) :
    serial g s (bs ++ cs) = serial g (serial g s bs) cs := List.foldl_append

@[simp] theorem feedback_false : feedback g false = 0#w := rfl

@[simp] theorem feedback_true : feedback g true = g := rfl

theorem feedback_xor (b c : Bool) : feedback g (b ^^ c) = feedback g b ^^^ feedback g c := by
  cases b <;> cases c <;> simp

@[simp] theorem bitStep_msb (s : BitVec w) : bitStep g s s.msb = s <<< 1 := by
  simp [bitStep]

theorem bitStep_xor (s t : BitVec w) (b c : Bool) :
    bitStep g (s ^^^ t) (b ^^ c) = bitStep g s b ^^^ bitStep g t c := by
  have hbit : ((s ^^^ t).msb ^^ (b ^^ c)) = ((s.msb ^^ b) ^^ (t.msb ^^ c)) := by
    rw [BitVec.msb_xor, Bool.xor_assoc, Bool.xor_left_comm t.msb, ← Bool.xor_assoc]
  rw [bitStep, hbit, feedback_xor, BitVec.shiftLeft_xor_distrib, bitStep, bitStep]
  ac_rfl

theorem serial_xor : ∀ (s t : BitVec w) {bs cs : List Bool}, bs.length = cs.length →
    serial g (s ^^^ t) (List.zipWith xor bs cs) = serial g s bs ^^^ serial g t cs
  | _, _, [], [], _ => rfl
  | s, t, b :: bs, c :: cs, h => by
      rw [List.zipWith_cons_cons, serial_cons, bitStep_xor, serial_xor _ _ (Nat.succ.inj h),
        serial_cons, serial_cons]

theorem serial_zipWith_xor (s : BitVec w) {bs cs : List Bool} (h : bs.length = cs.length) :
    serial g 0#w (List.zipWith xor bs cs) = serial g s bs ^^^ serial g s cs := by
  rw [← serial_xor g s s h, BitVec.xor_self]

theorem serial_topBits (k : ℕ) (s : BitVec w) : serial g s (topBits k s) = s <<< k := by
  induction k generalizing s with
  | zero => simp [topBits]
  | succ k ih => rw [topBits, serial_cons, bitStep_msb, ih, Nat.add_comm, BitVec.shiftLeft_add]

theorem serial_block (s : BitVec w) (bits : List Bool) :
    serial g s bits = (s <<< bits.length) ^^^
      serial g 0#w (List.zipWith xor (topBits bits.length s) bits) := by
  have hlen : (topBits bits.length s).length = bits.length := length_topBits ..
  rw [serial_zipWith_xor g s hlen, serial_topBits, ← BitVec.xor_assoc, BitVec.xor_self,
    BitVec.zero_xor]

theorem serial_table {k : ℕ} (hk : k ≤ w) {table : BitVec k → BitVec w}
    (htable : ∀ x, table x = serial g 0#w (topBits k x)) (s : BitVec w) (x : BitVec k) :
    serial g s (topBits k x) = (s <<< k) ^^^ table ((s >>> (w - k)).setWidth k ^^^ x) := by
  rw [serial_block, length_topBits, htable, ← zipWith_topBits, topBits_high hk]

theorem serial_topBits_xor (s x : BitVec w) :
    serial g s (topBits w (s ^^^ x)) = serial g 0#w (topBits w x) := by
  rw [serial_block, length_topBits, zipWith_topBits, ← BitVec.xor_assoc, BitVec.xor_self,
    BitVec.zero_xor, BitVec.shiftLeft_eq_zero (Nat.le_refl w), BitVec.zero_xor]

end

/-! ## Differences in a window -/

section

variable {w : ℕ} {g : BitVec w}

@[simp] theorem getLsbD_feedback_zero (hg : g.getLsbD 0 = true) (b : Bool) :
    (feedback g b).getLsbD 0 = b := by
  cases b <;> simp [hg]

theorem getLsbD_bitStep_zero (hg : g.getLsbD 0 = true) (s : BitVec w) (b : Bool) :
    (bitStep g s b).getLsbD 0 = (s.msb ^^ b) := by
  simp [bitStep, hg]

theorem bitStep_injective (hg : g.getLsbD 0 = true) (b : Bool) :
    Function.Injective (bitStep g · b) := by
  intro s t h
  have hmsb : s.msb = t.msb := by
    have := congrArg (BitVec.getLsbD · 0) h
    simpa only [getLsbD_bitStep_zero hg, Bool.xor_left_inj] using this
  have hshift : s <<< 1 = t <<< 1 := by
    simpa only [bitStep, hmsb, BitVec.xor_left_inj] using h
  refine BitVec.eq_of_getMsbD_eq fun i _ => ?_
  cases i with
  | zero => simpa only [BitVec.msb_eq_getMsbD_zero] using hmsb
  | succ i => simpa only [BitVec.getMsbD_shiftLeft] using congrArg (BitVec.getMsbD · i) hshift

theorem serial_injective (hg : g.getLsbD 0 = true) : ∀ bits : List Bool,
    Function.Injective (serial g · bits)
  | [] => fun _ _ h => h
  | b :: bits => (serial_injective hg bits).comp (bitStep_injective hg b)

/-- A block that leaves zeros behind it has met no feedback: it repeats the register. -/
theorem eq_topBits_of_low_zero (hg : g.getLsbD 0 = true) : ∀ (s : BitVec w) (bits : List Bool),
    bits.length ≤ w → (∀ i < bits.length, (serial g s bits).getLsbD i = false) →
    bits = topBits bits.length s
  | _, [], _, _ => rfl
  | s, b :: bits, hw, hlow => by
      rw [List.length_cons] at hw hlow
      have hbits : bits = topBits bits.length (bitStep g s b) :=
        eq_topBits_of_low_zero hg _ bits (by omega) fun i hi => hlow i (by omega)
      have hlast : (s.msb ^^ b) = false := by
        have hfinal : serial g s (b :: bits) = bitStep g s b <<< bits.length := by
          rw [serial_cons]
          conv_lhs => rw [hbits]
          rw [serial_topBits]
        have := hlow bits.length (by omega)
        rw [hfinal, BitVec.getLsbD_shiftLeft] at this
        simpa [show bits.length < w by omega, getLsbD_bitStep_zero hg] using this
      obtain rfl : s.msb = b := by simpa using hlast
      rw [bitStep_msb] at hbits
      rw [List.length_cons, topBits, ← hbits]

theorem eq_of_zipWith_xor : ∀ {bs cs : List Bool}, bs.length = cs.length →
    List.zipWith xor bs cs = List.replicate bs.length false → bs = cs
  | [], [], _, _ => rfl
  | b :: bs, c :: cs, hlen, h => by
      obtain ⟨hhead, htail⟩ := List.cons.inj h
      rw [bne_eq_false_iff_eq.mp hhead, eq_of_zipWith_xor (Nat.succ.inj hlen) htail]

theorem serial_block_injective (hg : g.getLsbD 0 = true) (s : BitVec w) {bs cs : List Bool}
    (hlen : bs.length = cs.length) (hw : bs.length ≤ w) (h : serial g s bs = serial g s cs) :
    bs = cs := by
  have hdiff : (List.zipWith xor bs cs).length = bs.length := by simp [hlen]
  have hzero : serial g 0#w (List.zipWith xor bs cs) = 0#w := by
    rw [serial_zipWith_xor g s hlen, h, BitVec.xor_self]
  refine eq_of_zipWith_xor hlen ?_
  have htop := eq_topBits_of_low_zero hg 0#w (List.zipWith xor bs cs) (by omega) fun i _ => by
    rw [hzero, BitVec.getLsbD_zero]
  rwa [hdiff, topBits_zero] at htop

theorem serial_ne_of_burst (hg : g.getLsbD 0 = true) (s : BitVec w) {bs cs : List Bool}
    (hlen : bs.length = cs.length) (hw : bs.length ≤ w) (hne : bs ≠ cs)
    (before after : List Bool) :
    serial g s (before ++ (bs ++ after)) ≠ serial g s (before ++ (cs ++ after)) := by
  simp only [serial_append]
  intro h
  exact hne (serial_block_injective hg _ hlen hw (serial_injective hg after h))

theorem window_split (i n : ℕ) (bs : List Bool) :
    bs = bs.take i ++ ((bs.drop i).take n ++ bs.drop (i + n)) := by
  rw [← List.drop_drop, List.take_append_drop, List.take_append_drop]

/-- Messages that differ within a window as long as the register have different checksums. -/
theorem serial_ne_of_window (hg : g.getLsbD 0 = true) (s : BitVec w) {bs cs : List Bool}
    (hlen : bs.length = cs.length) (hne : bs ≠ cs) {i : ℕ}
    (hwindow : ∀ j, bs[j]? ≠ cs[j]? → i ≤ j ∧ j < i + w) : serial g s bs ≠ serial g s cs := by
  have hbefore : bs.take i = cs.take i := List.ext_getElem? fun j => by
    rw [List.getElem?_take, List.getElem?_take]
    by_cases hj : j < i
    · have : bs[j]? = cs[j]? := by
        by_contra hdiff
        have := hwindow j hdiff
        omega
      rw [this]
    · rw [if_neg hj, if_neg hj]
  have hafter : bs.drop (i + w) = cs.drop (i + w) := List.ext_getElem? fun j => by
    rw [List.getElem?_drop, List.getElem?_drop]
    by_contra hdiff
    have := hwindow _ hdiff
    omega
  rw [window_split i w bs, window_split i w cs, hbefore, hafter] at hne ⊢
  refine serial_ne_of_burst hg s (by simp [hlen]) ?_ ?_ _ _
  · rw [List.length_take]
    exact Nat.min_le_left ..
  · intro hinside
    exact hne (by rw [hinside])

end

end SourceCompanion.Crc
