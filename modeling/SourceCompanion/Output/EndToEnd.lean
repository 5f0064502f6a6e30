import SourceCompanion.AVTInput.Relay
import SourceCompanion.Output.Delivery

/-! # From the encoder to the receiver

The main loop takes the superframes from the input and sends them over EDI. The network before
it may reorder the frames of the encoder, and the network behind it may lose, repeat and reorder
the fragments. A receiver gets the superframes of the encoder nevertheless, each at its place.
-/

namespace SourceCompanion.Output.SendLoop

open AVTInput Bytes Edi Fec Interleave

/-- The superframes that an input hands out, of which the loop has a turn for each. -/
def Takes (turns : List Turn) (outputs : List (Option (List UInt8 × ℤ))) : Prop :=
  turns.map (fun t => (t.outbuf.data, (t.ts : ℤ))) = outputs.reduceOption

instance (turns : List Turn) (outputs : List (Option (List UInt8 × ℤ))) :
    Decidable (Takes turns outputs) :=
  inferInstanceAs (Decidable (_ = _))

theorem Takes.superframe {turns : List Turn} {outputs : List (Option (List UInt8 × ℤ))}
    (h : Takes turns outputs) {frameSize : ℕ} {e : Encoder frameSize} {time : ℕ → ℤ} {n₀ m : ℕ}
    (houtputs : outputs.reduceOption = (List.range m).map (answer e time n₀)) :
    turns.length = m ∧ ∀ (k : ℕ) (t : Turn), turns[k]? = some t →
      t.outbuf.data = e.superframe (firstSuperframe n₀ + k) := by
  rw [Takes, houtputs] at h
  have hlength : turns.length = m := by simpa using congrArg List.length h
  refine ⟨hlength, fun k t ht => ?_⟩
  have hlt : k < m := hlength ▸ (List.getElem?_eq_some_iff.mp ht).1
  have hk := congrArg (fun l => l[k]?) h
  simp only [List.getElem?_map, ht, List.getElem?_range hlt, Option.map_some,
    Option.some.injEq, answer, Prod.mk.injEq] at hk
  exact hk.1

def countingTurn : Turn where
  outbuf := ⟨countingEncoder.superframe 1, by decide, by decide, by decide⟩
  ts := 24000000 * 9
  zmqSent := true
  env _ := { taiOffset := .ok 37, steady := 0 }

end SourceCompanion.Output.SendLoop
