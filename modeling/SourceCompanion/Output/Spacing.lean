import SourceCompanion.Output.SendLoop

/-! # The spacing of the packets

The time base is set once for a superframe, and nothing advances it between the packets. All of
them carry the same time stamp, although each one stands for another 24 ms.
-/

namespace SourceCompanion.Output

open Bytes Tlv Edi

/-- The instant of a packet in milliseconds: the seconds and the upper bits of the time stamp. -/
def packetInstant (packet : List UInt8) : Option ℕ :=
  (tagValue EDI.dstiName packet).bind fun value =>
    (readDSTI value).atst.map fun atst => atst.2.1 * 1000 + atst.2.2 / 2 ^ 14

/-- Each packet is 24 ms after the one before it. -/
def Spaced (packets : Packets) : Prop :=
  packets.IsChain fun packet next =>
    ∃ ms, packetInstant packet = some ms ∧ packetInstant next = some (ms + 24)

theorem packetInstant_mod {packet : List UInt8} {tsta ms : ℕ}
    (htsta : packetTsta packet = some tsta) (hms : packetInstant packet = some ms) :
    ms % 1000 = tsta / 2 ^ 14 % 1000 := by
  obtain ⟨value, hvalue, htsta⟩ := Option.bind_eq_some_iff.mp htsta
  obtain ⟨atst, hatst, rfl⟩ := Option.map_eq_some_iff.mp htsta
  rw [packetInstant, hvalue, Option.bind_some, hatst, Option.map_some, Option.some.injEq] at hms
  omega

theorem not_spaced_of_packetTsta {packets : Packets} (hlength : 2 ≤ packets.length) {tsta : ℕ}
    (hsame : ∀ packet ∈ packets, packetTsta packet = some tsta) : ¬ Spaced packets := by
  intro hspaced
  match packets, hlength with
  | packet :: next :: packets, _ =>
    obtain ⟨⟨ms, hms, hnext⟩, -⟩ := List.isChain_cons_cons.mp hspaced
    have hmod := packetInstant_mod (hsame packet (by simp)) hms
    have hmod' := packetInstant_mod (hsame next (by simp)) hnext
    omega

namespace EDI

variable {s : EDI} {calls : List Tist} {t : Tist}

/-- The blocks of a superframe leave the time base as it is, and each packet carries it. -/
theorem Follows.writeBlocks (h : Follows s calls) (hlast : calls.getLast? = some t)
    (henable : t.enable = true) (data : List UInt8) (blocksize : ℕ) (env : ℕ → Env)
    (is : List ℕ) (success : Bool) :
    (∀ packet ∈ (SendLoop.writeBlocks data blocksize env is success s).1.2,
        Output.packetTsta packet = some ((calls.map Tist.ms).sum % 1024 * 2 ^ 14)) ∧
      Follows (SendLoop.writeBlocks data blocksize env is success s).2 calls := by
  induction is generalizing s success with
  | nil => exact ⟨List.forall_mem_nil _, h⟩
  | cons i is ih =>
    have hkept := h.writeFrame (slice data (i * blocksize) blocksize) (env i)
    rw [SendLoop.writeBlocks]
    by_cases hserves : ∃ taiUtcOffset, (env i).Serves taiUtcOffset
    · obtain ⟨taiUtcOffset, hi⟩ := hserves
      obtain ⟨packet, hwrite, -⟩ :=
        writeFrame_of_serves hi s (slice data (i * blocksize) blocksize)
      have htsta := h.packetTsta hlast henable hi (congrArg Prod.fst hwrite)
      rw [hwrite] at hkept ⊢
      dsimp only
      split
      · exact ⟨List.forall_mem_singleton.mpr htsta, hkept⟩
      · obtain ⟨hpackets, hfollows⟩ := ih hkept (success && true)
        exact ⟨List.forall_mem_cons.mpr ⟨htsta, hpackets⟩, hfollows⟩
    · obtain ⟨e, s', hwrite, -⟩ :=
        writeFrame_of_not_serves hserves s (slice data (i * blocksize) blocksize)
      rw [hwrite] at hkept ⊢
      exact ⟨List.forall_mem_nil _, hkept⟩

theorem Follows.updateAudioLevels (h : Follows s calls) (audioLeft audioRight : Int16) :
    Follows (s.updateAudioLevels audioLeft audioRight) calls :=
  ⟨h.timestamp, h.ediTime, h.tist, h.dlfc⟩

end EDI

namespace SendLoop

open EDI

variable {c : Config} {s : SendLoop} {calls : List Tist}

theorem writeEdi_packetTsta (c : Config) (t : Turn) (success : Bool) {edi : EDI} {last : Tist}
    (h : Follows edi calls) (hlast : calls.getLast? = some last) (henable : last.enable = true) :
    (∀ packet ∈ (writeEdi c t success edi).1.2,
        packetTsta packet = some ((calls.map Tist.ms).sum % 1024 * 2 ^ 14)) ∧
      Follows (writeEdi c t success edi).2 calls := by
  have hlevels := h.updateAudioLevels t.peakLeft t.peakRight
  unfold writeEdi
  split
  · dsimp only
    split
    · exact ⟨List.forall_mem_nil _, hlevels⟩
    · exact hlevels.writeBlocks hlast henable _ _ _ _ _
  · exact ⟨List.forall_mem_nil _, h⟩

theorem turn_packetTsta (huris : c.ediOutputUris = true) (htist : c.tistEnabled = true)
    (h : Follows s.edi calls) (t : Turn) :
    ∃ calls' tsta, Follows (turn c s t).2.edi calls' ∧
      ∀ packet ∈ (turn c s t).1.1, packetTsta packet = some tsta := by
  obtain ⟨edi, hset, hfollows⟩ : ∃ edi, s.edi.setTist c.tistEnabled c.tistDelayMs t.ts =
      (.ok (), edi) ∧ Follows edi (calls ++ [⟨c.tistEnabled, c.tistDelayMs, t.ts⟩]) :=
    ⟨_, s.edi.setTist_eq ⟨c.tistEnabled, c.tistDelayMs, t.ts⟩,
      congrArg Prod.snd (s.edi.setTist_eq ⟨c.tistEnabled, c.tistDelayMs, t.ts⟩) ▸ h.setTist _⟩
  obtain ⟨hpackets, hkept⟩ := writeEdi_packetTsta c t (!c.zmqOutput || t.zmqSent) hfollows
    List.getLast?_concat htist
  have hturn : (turn c s t).1.1 = (writeEdi c t (!c.zmqOutput || t.zmqSent) edi).1.2 ∧
      (turn c s t).2.edi = (writeEdi c t (!c.zmqOutput || t.zmqSent) edi).2 := by
    rw [turn, if_pos huris, hset]
    dsimp only
    rcases writeEdi c t (!c.zmqOutput || t.zmqSent) edi with ⟨⟨_ | success, packets⟩, edi'⟩
    · exact ⟨rfl, rfl⟩
    · dsimp only
      split_ifs <;> exact ⟨rfl, rfl⟩
  rw [hturn.1, hturn.2]
  exact ⟨_, _, hkept, hpackets⟩

theorem run_packetTsta (huris : c.ediOutputUris = true) (htist : c.tistEnabled = true)
    (h : Follows s.edi calls) (turns : List Turn) :
    ∀ packets ∈ run c s turns, ∃ tsta, ∀ packet ∈ packets, packetTsta packet = some tsta := by
  induction turns generalizing s calls with
  | nil => exact nofun
  | cons t turns ih =>
    obtain ⟨calls', tsta, hkept, hpackets⟩ := turn_packetTsta huris htist h t
    rw [run]
    rcases hturn : turn c s t with ⟨⟨packets, _ | retval | e⟩, s'⟩
    · rw [hturn] at hkept hpackets
      exact List.forall_mem_cons.mpr ⟨⟨tsta, hpackets⟩, ih hkept⟩
    · rw [hturn] at hpackets
      exact List.forall_mem_singleton.mpr ⟨tsta, hpackets⟩
    · rw [hturn] at hpackets
      exact List.forall_mem_singleton.mpr ⟨tsta, hpackets⟩

/-- With time stamps, the five packets of a superframe are never spaced by 24 ms. -/
theorem not_spaced (huris : c.ediOutputUris = true) (htist : c.tistEnabled = true)
    (odrVersionTag : List UInt8) (tagpacketAlignment : UInt32) (steady : ℤ) (turns : List Turn) :
    ∀ packets ∈ run c { edi := EDI.start odrVersionTag tagpacketAlignment steady } turns,
      packets.length = 5 → ¬ Spaced packets := by
  intro packets hmem hlength
  obtain ⟨tsta, hsame⟩ := run_packetTsta huris htist
    (follows_start odrVersionTag tagpacketAlignment steady) turns packets hmem
  exact not_spaced_of_packetTsta (by omega) hsame

def stampedOutput : Config where
  zmqOutput := false
  ediOutputUris := true
  ediEnabled := true
  tistEnabled := true

theorem stamped_turn :
    ∃ packets ∈ run stampedOutput { edi := EDI.start [] 0 0 } [smallTurn true],
      packets.length = 5 := by
  have hundisturbed : (smallTurn true).Undisturbed stampedOutput :=
    ⟨fun _ => rfl, fun i _ => ⟨37, rfl, rfl⟩⟩
  obtain ⟨packets, s', hturn, hcarries, -⟩ :=
    turn_of_undisturbed rfl (aligned_start [] 0 0) hundisturbed
  refine ⟨packets, ?_, hcarries.length_eq.symm⟩
  rw [run, hturn]
  exact List.mem_cons_self

theorem not_spaced_stamped_turn :
    ∃ packets ∈ run stampedOutput { edi := EDI.start [] 0 0 } [smallTurn true],
      packets.length = 5 ∧ ¬ Spaced packets := by
  obtain ⟨packets, hmem, hlength⟩ := stamped_turn
  exact ⟨packets, hmem, hlength, not_spaced rfl rfl [] 0 0 _ packets hmem hlength⟩

/-- All five packets carry the same instant. -/
theorem stamped_turn_not_spaced :
    ∃ packets, run stampedOutput { edi := EDI.start [] 0 0 } [smallTurn true] = [packets] ∧
      packets.map packetInstant = List.replicate 5 (some 3348282501000) ∧ ¬ Spaced packets := by
  obtain ⟨packets, hrun⟩ : ∃ packets,
      run stampedOutput { edi := EDI.start [] 0 0 } [smallTurn true] = [packets] := ⟨_, rfl⟩
  have hinstants : (run stampedOutput { edi := EDI.start [] 0 0 } [smallTurn true]).map
      (List.map packetInstant) = [List.replicate 5 (some 3348282501000)] := by decide +kernel
  rw [hrun, List.map_singleton, List.cons.injEq] at hinstants
  refine ⟨packets, hrun, hinstants.1, ?_⟩
  have hlength : packets.length = 5 := by simpa using congrArg List.length hinstants.1
  obtain ⟨tsta, hsame⟩ := run_packetTsta (c := stampedOutput) rfl rfl (follows_start [] 0 0)
    [smallTurn true] packets (by rw [hrun]; exact List.mem_cons_self)
  exact not_spaced_of_packetTsta (by omega) hsame

end SendLoop

end SourceCompanion.Output
