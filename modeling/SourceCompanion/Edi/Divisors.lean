import SourceCompanion.Edi.PFT
import SourceCompanion.Run.Mealy

/-! # The divisors of the fragmentation

The constructor rejects chunks that are too long and nothing else. Whether a packet is cut up or
divides by zero depends on the number of fragments to recover and on the number of its chunks.
-/

namespace SourceCompanion.Edi.PFT

open Bytes Interleave

/-- Without protection nothing is divided by the configuration. With it, there are chunks, and the
parity bytes of all of them go around the fragments that are to be recovered and one more. -/
def NonzeroDivisors (k m l : ℕ) : Prop :=
  m = 0 ∨ 0 < k ∧ m + 1 < 2 ^ 32 ∧ m + 1 ≤ partCount l k * parityBytes

instance (k m l : ℕ) : Decidable (NonzeroDivisors k m l) := inferInstanceAs (Decidable (_ ∨ _))

variable {encode : List UInt8 → Vector UInt8 parityBytes} {pft : PFT} {af : List UInt8}

theorem ceilDiv_zero (a : ℕ) : ceilDiv a 0 = .error .divisionByZero := if_pos rfl

theorem toNat_divisor (m : UInt32) : (m + 1).toNat = (m.toNat + 1) % 2 ^ 32 := by
  rw [UInt32.toNat_add, UInt32.toNat_one]

theorem length_block_pos (hk : 0 < pft.k.toNat) (hne : af ≠ []) :
    0 < (pft.block encode af).length := by
  rw [length_block_of_pos hk hne]
  exact Nat.mul_pos (chunkCount_pos_of_pos hk hne) (by simp [parityBytes])

section Fragment

variable (encode)

theorem protectAndFragment_of_zero (hrs : pft.enableRS) (hk : pft.k.toNat = 0) :
    protectAndFragment encode pft af = .error .divisionByZero := by
  simp only [protectAndFragment, if_pos hrs, protect, hk, ceilDiv_zero, bind, Except.bind]

theorem protectAndFragment_of_lt (hrs : pft.enableRS) (hk : 0 < pft.k.toNat)
    (hle : pft.k.toNat ≤ 207) (hne : af ≠ [])
    (hm : ¬ (pft.m.toNat + 1 < 2 ^ 32 ∧ pft.m.toNat + 1 ≤ pft.chunkCount af * parityBytes)) :
    protectAndFragment encode pft af = .error .divisionByZero := by
  have hlt := pft.m.toNat_lt
  simp only [protectAndFragment, if_pos hrs, protect_of_pos hk hle hne, bind, Except.bind,
    toNat_divisor]
  by_cases hwrap : (pft.m.toNat + 1) % 2 ^ 32 = 0
  · exact if_pos hwrap
  · have hdivisor : (pft.m.toNat + 1) % 2 ^ 32 = pft.m.toNat + 1 := Nat.mod_eq_of_lt (by omega)
    have hmax : pft.chunkCount af * parityBytes / (pft.m.toNat + 1) = 0 :=
      Nat.div_eq_of_lt (by omega)
    rw [if_neg hwrap, hdivisor, hmax, ceilDiv_zero]

theorem protectAndFragment_of_le (hrs : pft.enableRS) (hk : 0 < pft.k.toNat)
    (hle : pft.k.toNat ≤ 207) (hne : af ≠ []) (hlt : pft.m.toNat + 1 < 2 ^ 32)
    (hm : pft.m.toNat + 1 ≤ pft.chunkCount af * parityBytes) :
    ∃ payloads, payloads ≠ [] ∧ protectAndFragment encode pft af =
      .ok (payloads, { pft with numChunks := pft.chunkCount af }) := by
  have hblock : 0 < (pft.block encode af).length := length_block_pos hk hne
  have hmax : 0 < pft.chunkCount af * parityBytes / (pft.m.toNat + 1) :=
    Nat.div_pos hm (Nat.succ_pos _)
  have hcount := partCount_pos hblock hmax
  simp only [protectAndFragment, if_pos hrs, protect_of_pos hk hle hne, bind, Except.bind,
    toNat_divisor, Nat.mod_eq_of_lt hlt, ceilDiv_of_pos hmax]
  rw [if_neg (Nat.succ_ne_zero _), ← partCount, ceilDiv_of_pos hcount]
  refine ⟨_, ?_, rfl⟩
  rw [ne_eq, List.map_eq_nil_iff, List.range_eq_nil]
  exact hcount.ne'

theorem protectAndFragment_of_disabled (hrs : ¬ pft.enableRS) (hne : af ≠ []) :
    ∃ payloads, payloads ≠ [] ∧ protectAndFragment encode pft af =
      .ok (payloads, { pft with numChunks := pft.numChunks }) := by
  have hcount := partCount_pos (List.length_pos_iff.mpr hne) (by norm_num : 0 < 1400)
  have hfirst : ceilDiv af.length 1400 = .ok (partCount af.length 1400) :=
    ceilDiv_of_pos (by norm_num)
  have hsecond : ceilDiv af.length (partCount af.length 1400) = .ok (partSize af.length 1400) :=
    ceilDiv_of_pos hcount
  refine ⟨pieces (partCount af.length 1400) (partSize af.length 1400) af, ?_, ?_⟩
  · exact List.ne_nil_of_length_pos (by rwa [length_pieces])
  · simp only [protectAndFragment, if_neg hrs, bind, Except.bind, hfirst, hsecond]

end Fragment

section Assemble

variable (encode)

theorem assemble_of_error {e : PFTError} (h : protectAndFragment encode pft af = .error e) :
    assemble encode pft af = (.error e, pft) := by
  simp only [assemble, assembleFragments, h, bind, Except.bind]

theorem assemble_of_payloads {payloads : List (List UInt8)} {numChunks : ℕ}
    (hne : payloads ≠ []) (hchunks : pft.enableRS → 0 < numChunks)
    (h : protectAndFragment encode pft af = .ok (payloads, { pft with numChunks })) :
    ∃ fragments, fragments ≠ [] ∧ assemble encode pft af =
      (.ok fragments, { pft with numChunks, pseq := pft.pseq + 1 }) := by
  have hzip {f : List UInt8 × ℕ → List UInt8} : payloads.zipIdx.map f ≠ [] := by
    rw [ne_eq, List.map_eq_nil_iff, List.zipIdx_eq_nil_iff]
    exact hne
  by_cases hrs : pft.enableRS
  · have hrs' : ({ pft with numChunks } : PFT).enableRS := hrs
    simp only [assemble, assembleFragments, h, bind, Except.bind, if_pos hrs',
      ceilDiv_of_pos (hchunks hrs)]
    exact ⟨_, hzip, rfl⟩
  · have hrs' : ¬ ({ pft with numChunks } : PFT).enableRS := hrs
    simp only [assemble, assembleFragments, h, bind, Except.bind, if_neg hrs']
    exact ⟨_, hzip, rfl⟩

/-- A call returns fragments if no divisor is zero, and stops at one otherwise. -/
theorem assemble_cases (hle : pft.k.toNat ≤ 207) (hne : af ≠ []) :
    (NonzeroDivisors pft.k.toNat pft.m.toNat af.length ∧ ∃ fragments numChunks,
      fragments ≠ [] ∧ assemble encode pft af =
        (.ok fragments, { pft with numChunks, pseq := pft.pseq + 1 })) ∨
      ¬ NonzeroDivisors pft.k.toNat pft.m.toNat af.length ∧
        assemble encode pft af = (.error .divisionByZero, pft) := by
  by_cases hrs : pft.enableRS
  · have hm : pft.m.toNat ≠ 0 := fun h =>
      Bool.false_ne_true ((enableRS_eq_false_iff.mpr h).symm.trans hrs)
    rcases Nat.eq_zero_or_pos pft.k.toNat with hk | hk
    · refine .inr ⟨?_, assemble_of_error encode (protectAndFragment_of_zero encode hrs hk)⟩
      rintro (h | ⟨h, -⟩)
      · exact hm h
      · omega
    · by_cases hroom : pft.m.toNat + 1 < 2 ^ 32 ∧
          pft.m.toNat + 1 ≤ pft.chunkCount af * parityBytes
      · obtain ⟨payloads, hpayloads, hok⟩ :=
          protectAndFragment_of_le encode hrs hk hle hne hroom.1 hroom.2
        obtain ⟨fragments, hfragments, hassemble⟩ := assemble_of_payloads encode hpayloads
          (fun _ => chunkCount_pos_of_pos hk hne) hok
        exact .inl ⟨.inr ⟨hk, hroom⟩, fragments, _, hfragments, hassemble⟩
      · refine .inr ⟨?_, assemble_of_error encode
          (protectAndFragment_of_lt encode hrs hk hle hne hroom)⟩
        rintro (h | ⟨-, h⟩)
        · exact hm h
        · exact hroom h
  · have hm := enableRS_eq_false_iff.mp (Bool.eq_false_iff.mpr hrs)
    obtain ⟨payloads, hpayloads, hok⟩ := protectAndFragment_of_disabled encode hrs hne
    obtain ⟨fragments, hfragments, hassemble⟩ :=
      assemble_of_payloads encode hpayloads (fun h => absurd h hrs) hok
    exact .inl ⟨.inl hm, fragments, _, hfragments, hassemble⟩

theorem assemble_keeps (hle : pft.k.toNat ≤ 207) (hne : af ≠ []) :
    (assemble encode pft af).2.k = pft.k ∧ (assemble encode pft af).2.m = pft.m := by
  rcases assemble_cases encode hle hne with ⟨-, fragments, numChunks, -, hassemble⟩ | ⟨-, hassemble⟩
  · rw [hassemble]
    exact ⟨rfl, rfl⟩
  · rw [hassemble]
    exact ⟨rfl, rfl⟩

theorem state_keeps (hle : pft.k.toNat ≤ 207) {afs : List (List UInt8)}
    (hafs : ∀ af ∈ afs, af ≠ []) :
    (Mealy.state (assemble encode) pft afs).k = pft.k ∧
      (Mealy.state (assemble encode) pft afs).m = pft.m := by
  induction afs generalizing pft with
  | nil => exact ⟨rfl, rfl⟩
  | cons af afs ih =>
    obtain ⟨hne, hafs⟩ := List.forall_mem_cons.mp hafs
    obtain ⟨hk, hm⟩ := assemble_keeps encode hle hne
    rw [Mealy.state_cons, ← hk, ← hm]
    exact ih (hk ▸ hle) hafs

/-- In every run, a chunk is never too long, and a packet is cut up exactly if no divisor is
zero. -/
theorem assemble_returns_iff {conf : Configuration} (hconf : ofConfiguration conf = .ok pft)
    {afs : List (List UInt8)} (hafs : ∀ af ∈ afs, af ≠ []) (hne : af ≠ []) :
    (∀ what, (assemble encode (Mealy.state (assemble encode) pft afs) af).1 ≠
        .error (.runtimeError what)) ∧
      ((∃ fragments, fragments ≠ [] ∧
          (assemble encode (Mealy.state (assemble encode) pft afs) af).1 = .ok fragments) ↔
        NonzeroDivisors conf.chunkLen.toNat conf.fec.toNat af.length) := by
  unfold ofConfiguration at hconf
  split_ifs at hconf with hlong
  obtain rfl := Except.ok.inj hconf
  have hle : conf.chunkLen.toNat ≤ 207 := UInt32.not_lt.mp hlong
  obtain ⟨hk, hm⟩ := state_keeps encode
    (show (⟨conf.chunkLen, conf.fec, 0, 0⟩ : PFT).k.toNat ≤ 207 from hle) hafs
  generalize Mealy.state (assemble encode) ⟨conf.chunkLen, conf.fec, 0, 0⟩ afs = s at hk hm ⊢
  dsimp only at hk hm
  rw [← hk] at hle
  rw [← hk, ← hm]
  rcases assemble_cases encode hle hne with
    ⟨hdivisors, fragments, numChunks, hfragments, hassemble⟩ | ⟨hdivisors, hassemble⟩
  · rw [hassemble]
    exact ⟨nofun, iff_of_true ⟨fragments, hfragments, rfl⟩ hdivisors⟩
  · rw [hassemble]
    exact ⟨by rintro what ⟨⟩, iff_of_false (by rintro ⟨fragments, -, ⟨⟩⟩) hdivisors⟩

end Assemble

theorem assemble_returns_default :
    ofConfiguration { fec := 3 } = .ok { k := 207, m := 3 } ∧
      ∃ fragments, fragments ≠ [] ∧
        (assemble (fun _ => Vector.replicate parityBytes 0) { k := 207, m := 3 } [0]).1 =
          .ok fragments :=
  ⟨rfl, (assemble_returns_iff (fun _ => Vector.replicate parityBytes 0)
    (show ofConfiguration { fec := 3 } = .ok { k := 207, m := 3 } from rfl)
    (show ∀ af ∈ ([] : List (List UInt8)), af ≠ [] from nofun)
    (List.cons_ne_nil _ _)).2.mpr (by decide)⟩

end SourceCompanion.Edi.PFT

namespace SourceCompanion.Edi

def Configuration.setFec (conf : Configuration) (fec : ℤ) : Configuration :=
  { conf with enablePft := true, fec := UInt32.ofInt fec }

/-- With 60 fragments to recover, a packet of a single chunk divides by zero. -/
theorem PFT.setFec_divides_by_zero :
    PFT.ofConfiguration (({} : Configuration).setFec 60) = .ok { k := 207, m := 60 } ∧
      ¬ ∃ fragments, (PFT.assemble (fun _ => Vector.replicate parityBytes 0)
        { k := 207, m := 60 } [0]).1 = .ok fragments := by
  refine ⟨rfl, ?_⟩
  rintro ⟨fragments, hok⟩
  rcases PFT.assemble_cases (fun _ => Vector.replicate parityBytes 0)
    (show ({ k := 207, m := 60 } : PFT).k.toNat ≤ 207 by decide)
    (List.cons_ne_nil 0 []) with ⟨hdivisors, -⟩ | ⟨-, hassemble⟩
  · exact absurd hdivisors (by decide)
  · rw [hassemble] at hok
    cases hok

end SourceCompanion.Edi
