import SourceCompanion.Output.Timestamp

/-! # The uptime of the EDI output

The version is sent with the time for which frames have been sent, 24 ms for each of them. The
output multiplies by 1000 and divides by 24 instead, and the product wraps.
-/

namespace SourceCompanion.Output

open Bytes Tlv Edi

def odrVersionName : List UInt8 := ascii ['O', 'D', 'R', 'v']

/-- The uptime of a packet with a version: the last four bytes of it. -/
def packetUptime (packet : List UInt8) : Option ℕ :=
  (tagValue odrVersionName packet).map fun value => ofBE (value.drop (value.length - 4))

def completes : Except String (Option (List UInt8)) → Bool
  | .ok (some _) => true
  | _ => false

def completed (s : EDI) (ops : List Op) : ℕ := (Mealy.outputs EDI.step s ops).countP completes

namespace EDI

/-- Every version that is sent carries the seconds for which frames were sent before. -/
def KeepsUptime (s : EDI) (ops : List Op) : Prop :=
  ∀ (i : ℕ) buf env taiUtcOffset, ops[i]? = some (.writeFrame buf env) →
    env.Serves taiUtcOffset → (Mealy.state step s (ops.take i)).Due env →
      ∃ packet, (Mealy.outputs step s ops)[i]? = some (.ok (some packet)) ∧
        packetUptime packet = some (completed s (ops.take i) * 24 / 1000)

/-- A version is sent after a multiple of 262144000 packets only. -/
def VersionsAligned (s : EDI) (ops : List Op) : Prop :=
  ∀ (i : ℕ) buf env taiUtcOffset, ops[i]? = some (.writeFrame buf env) →
    env.Serves taiUtcOffset → (Mealy.state step s (ops.take i)).Due env →
      262144000 ∣ completed s (ops.take i)

theorem uptime_eq_iff {n : ℕ} (hn : n < 2 ^ 32) :
    n * 1000 % 2 ^ 32 / 24 = n * 24 / 1000 ↔ 262144000 ∣ n := by
  constructor
  · intro h
    -- Both sides are close to a rational multiple of `n`, apart from the wraps of the product.
    have hwraps : ∃ k, 61 * n = 262144000 * k ∨ 61 * n = 262144000 * k + 1 ∨
        61 * n + 1 = 262144000 * k := ⟨n * 1000 / 2 ^ 32, by omega⟩
    obtain ⟨k, hk | hk | hk⟩ := hwraps
    · omega
    · omega
    · omega
  · rintro ⟨j, rfl⟩
    omega

section Step

variable {s : EDI} {buf : List UInt8} {env : Env} {taiUtcOffset : ℤ}

theorem contents_tagPacket_due (s : EDI) (tagDSTI : TagDSTI) (buf : List UInt8) :
    ∃ more, (s.tagPacket tagDSTI buf true).contents =
      (ascii ['*', 'p', 't', 'r'], ascii ['D', 'S', 'T', 'I'] ++ [0, 0, 0, 0]) ::
        (dstiName, (TagItem.dsti tagDSTI).value) :: (ssName, ssValue buf) ::
        (ascii ['O', 'D', 'R', 'a'],
          (TagItem.odrAudioLevels ⟨s.audioLeft, s.audioRight⟩).value) ::
        (odrVersionName, s.odrVersionTag ++ be32 (s.numFramesSent * 1000 / 24)) :: more :=
  ⟨_, rfl⟩

theorem findTag_odrVersion (s : EDI) (tagDSTI : TagDSTI) (rest : List UInt8)
    (hversion : s.odrVersionTag.length + 4 < 2 ^ 29) (hbuf : buf.length + 3 < 2 ^ 29) :
    findTag odrVersionName
        ((s.tagPacket tagDSTI buf true).contents.flatMap (fun u => tag u.1 u.2) ++ rest) =
      some (s.odrVersionTag ++ be32 (s.numFramesSent * 1000 / 24)) := by
  obtain ⟨more, hmore⟩ := s.contents_tagPacket_due tagDSTI buf
  have hdsti : (TagItem.dsti tagDSTI).value.length < 2 ^ 29 :=
    Nat.lt_of_le_of_lt tagDSTI.length_value_le (by norm_num)
  have hss : (ssValue buf).length < 2 ^ 29 := by
    simp only [ssValue, TagItem.value, List.length_append, length_be24]
    omega
  have hvalue : (s.odrVersionTag ++ be32 (s.numFramesSent * 1000 / 24)).length < 2 ^ 29 := by
    rw [List.length_append, length_be32]
    exact hversion
  rw [hmore]
  simp only [List.flatMap_cons, List.append_assoc]
  rw [findTag_append rfl (by simp), if_neg (by decide), findTag_append rfl hdsti,
    if_neg (by decide), findTag_append rfl hss, if_neg (by decide),
    findTag_append rfl (by simp [TagItem.value]), if_neg (by decide), findTag_append rfl hvalue,
    if_pos rfl]

theorem packetUptime_writeFrame (hserves : env.Serves taiUtcOffset) (hdue : s.Due env)
    (hversion : s.odrVersionTag.length + 4 < 2 ^ 29) (hbuf : buf.length + 3 < 2 ^ 29) :
    ∃ packet, (s.writeFrame buf env).1 = .ok packet ∧
      packetUptime packet = some (s.numFramesSent.toNat * 1000 % 2 ^ 32 / 24) := by
  obtain ⟨packet, rest, hwrite, hvalue⟩ := writeFrame_contents hserves.1 s buf
  rw [hserves.2] at hwrite
  refine ⟨packet, congrArg Prod.fst hwrite, ?_⟩
  have hdrop : (s.odrVersionTag ++ be32 (s.numFramesSent * 1000 / 24)).drop
      ((s.odrVersionTag ++ be32 (s.numFramesSent * 1000 / 24)).length - 4) =
        be32 (s.numFramesSent * 1000 / 24) := by
    rw [List.length_append, length_be32, Nat.add_sub_cancel, List.drop_left]
  rw [packetUptime, hvalue, decide_eq_true hdue, s.findTag_odrVersion _ _ hversion hbuf,
    Option.map_some, hdrop, ofBE_be32, UInt32.toNat_div, UInt32.toNat_mul]
  rfl

theorem writeFrame_counts (s : EDI) (buf : List UInt8) (env : Env) :
    (s.writeFrame buf env).2.odrVersionTag = s.odrVersionTag ∧
      (s.writeFrame buf env).2.numFramesSent =
        s.numFramesSent + if (s.writeFrame buf env).1.isOk then 1 else 0 := by
  cases hoffset : env.taiOffset with
  | error e =>
    rw [writeFrame, hoffset]
    exact ⟨rfl, (UInt32.add_zero _).symm⟩
  | ok taiUtcOffset =>
    obtain ⟨packet, rest, hwrite, -⟩ := writeFrame_contents hoffset s buf
    rw [hwrite]
    cases env.transport with
    | error e => exact ⟨rfl, (UInt32.add_zero _).symm⟩
    | ok u => exact ⟨rfl, rfl⟩

theorem step_counts (s : EDI) (op : Op) :
    (s.step op).2.odrVersionTag = s.odrVersionTag ∧
      (s.step op).2.numFramesSent =
        s.numFramesSent + if completes (s.step op).1 then 1 else 0 := by
  cases op with
  | setTist t =>
    rw [step, setTist_eq]
    exact ⟨rfl, (UInt32.add_zero _).symm⟩
  | updateAudioLevels audioLeft audioRight => exact ⟨rfl, (UInt32.add_zero _).symm⟩
  | writeFrame buf env =>
    obtain ⟨hversion, hcount⟩ := s.writeFrame_counts buf env
    have hcompletes : completes (s.step (.writeFrame buf env)).1 =
        (s.writeFrame buf env).1.isOk := by
      rw [step, Prod.map_fst]
      cases (s.writeFrame buf env).1 <;> rfl
    rw [hcompletes]
    exact ⟨hversion, hcount⟩

end Step

/-! ## Runs -/

theorem completed_cons (s : EDI) (op : Op) (ops : List Op) :
    completed s (op :: ops) =
      completed (s.step op).2 ops + if completes (s.step op).1 then 1 else 0 := by
  rw [completed, Mealy.outputs_cons, List.countP_cons, completed]

theorem completed_concat (s : EDI) (ops : List Op) (op : Op) :
    completed s (ops ++ [op]) ≤ completed s ops + 1 := by
  rw [completed, Mealy.outputs_append, List.countP_append]
  exact Nat.add_le_add_left (List.countP_le_length ..) _

theorem completed_take_le (s : EDI) (ops : List Op) (i : ℕ) :
    completed s (ops.take i) ≤ completed s ops := by
  rw [completed, ← Mealy.outputs_take]
  exact (List.take_sublist i _).countP_le

theorem state_counts (s : EDI) (ops : List Op) :
    (Mealy.state step s ops).odrVersionTag = s.odrVersionTag ∧
      (Mealy.state step s ops).numFramesSent = s.numFramesSent + .ofNat (completed s ops) := by
  induction ops generalizing s with
  | nil => exact ⟨rfl, (UInt32.add_zero _).symm⟩
  | cons op ops ih =>
    obtain ⟨hversion, hcount⟩ := s.step_counts op
    obtain ⟨hversion', hcount'⟩ := ih (s.step op).2
    refine ⟨hversion'.trans hversion, ?_⟩
    rw [Mealy.state_cons, hcount', hcount, completed_cons, UInt32.ofNat_add]
    split
    · rw [UInt32.add_assoc, UInt32.add_comm 1]
      rfl
    · rw [UInt32.add_zero]
      exact congrArg (s.numFramesSent + ·) (UInt32.add_zero _).symm

theorem packetUptime_outputs {s : EDI} {ops : List Op} {i : ℕ} {buf : List UInt8} {env : Env}
    {taiUtcOffset : ℤ} (hstart : s.numFramesSent = 0)
    (hversion : s.odrVersionTag.length + 4 < 2 ^ 29) (hops : completed s ops < 2 ^ 32)
    (hbuf : buf.length + 3 < 2 ^ 29) (hop : ops[i]? = some (.writeFrame buf env))
    (hserves : env.Serves taiUtcOffset) (hdue : (Mealy.state step s (ops.take i)).Due env) :
    ∃ packet, (Mealy.outputs step s ops)[i]? = some (.ok (some packet)) ∧
      packetUptime packet = some (completed s (ops.take i) * 1000 % 2 ^ 32 / 24) := by
  obtain ⟨hversion', hcount⟩ := s.state_counts (ops.take i)
  have hlt := Nat.lt_of_le_of_lt (completed_take_le s ops i) hops
  have htoNat : (Mealy.state step s (ops.take i)).numFramesSent.toNat =
      completed s (ops.take i) := by
    rw [hcount, hstart, UInt32.zero_add, UInt32.toNat_ofNat_of_lt' hlt]
  rw [← hversion'] at hversion
  obtain ⟨packet, hwrite, huptime⟩ := packetUptime_writeFrame hserves hdue hversion hbuf
  refine ⟨packet, ?_, htoNat ▸ huptime⟩
  rw [Mealy.outputs_getElem?, hop, Option.map_some, step, Prod.map_fst, hwrite]
  rfl

/-- The uptime is right in all versions exactly if each of them comes after a multiple of 262144000
packets. -/
theorem keepsUptime_iff (odrVersionTag : List UInt8) (tagpacketAlignment : UInt32) (steady : ℤ)
    {ops : List Op} (hversion : odrVersionTag.length + 4 < 2 ^ 29)
    (hops : completed (start odrVersionTag tagpacketAlignment steady) ops < 2 ^ 32)
    (hbufs : ∀ buf env, .writeFrame buf env ∈ ops → buf.length + 3 < 2 ^ 29) :
    (start odrVersionTag tagpacketAlignment steady).KeepsUptime ops ↔
      (start odrVersionTag tagpacketAlignment steady).VersionsAligned ops := by
  obtain ⟨s, hs⟩ : ∃ s, start odrVersionTag tagpacketAlignment steady = s := ⟨_, rfl⟩
  have hstart : s.numFramesSent = 0 := hs ▸ rfl
  have hversion : s.odrVersionTag.length + 4 < 2 ^ 29 := hs ▸ hversion
  rw [hs] at hops ⊢
  have hlt (i : ℕ) : completed s (ops.take i) < 2 ^ 32 :=
    Nat.lt_of_le_of_lt (completed_take_le s ops i) hops
  constructor
  · intro h i buf env taiUtcOffset hop hserves hdue
    obtain ⟨packet, houtput, huptime⟩ := packetUptime_outputs hstart hversion hops
      (hbufs buf env (List.mem_of_getElem? hop)) hop hserves hdue
    obtain ⟨packet', houtput', huptime'⟩ := h i buf env taiUtcOffset hop hserves hdue
    obtain rfl : packet = packet' := by simpa [houtput] using houtput'
    exact (uptime_eq_iff (hlt i)).mp (Option.some.inj (huptime.symm.trans huptime'))
  · intro h i buf env taiUtcOffset hop hserves hdue
    obtain ⟨packet, houtput, huptime⟩ := packetUptime_outputs hstart hversion hops
      (hbufs buf env (List.mem_of_getElem? hop)) hop hserves hdue
    refine ⟨packet, houtput, ?_⟩
    rw [huptime, (uptime_eq_iff (hlt i)).mpr (h i buf env taiUtcOffset hop hserves hdue)]

def servedAt (steady : ℤ) : Env where
  taiOffset := .ok 37
  steady

/-- Frames that are sent at once, and another one eleven seconds later. -/
def framesAtOnce (n : ℕ) : List Op :=
  List.replicate n (.writeFrame [0] (servedAt 0)) ++ [.writeFrame [0] (servedAt (11 * second))]

theorem state_framesAtOnce {s : EDI} (h : s.timeLastVersionSent = 0) (n : ℕ) :
    completed s (List.replicate n (.writeFrame [0] (servedAt 0))) = n ∧
      (Mealy.state step s (List.replicate n (.writeFrame [0] (servedAt 0)))).timeLastVersionSent =
        0 := by
  induction n generalizing s with
  | zero => exact ⟨rfl, h⟩
  | succ n ih =>
    have hserves : (servedAt 0).Serves 37 := ⟨rfl, rfl⟩
    obtain ⟨packet, hwrite, -⟩ := writeFrame_of_serves hserves s [0]
    have hstep : s.step (.writeFrame [0] (servedAt 0)) =
        (.ok (some packet), s.sent (servedAt 0) 37) := by
      rw [step, hwrite]
      rfl
    have hsent : (s.sent (servedAt 0) 37).timeLastVersionSent = 0 := by
      rw [sent, h]
      rfl
    obtain ⟨hcompleted, htime⟩ := ih hsent
    rw [List.replicate_succ, completed_cons, Mealy.state_cons, hstep]
    exact ⟨congrArg (· + 1) hcompleted, htime⟩

theorem completed_framesAtOnce (n : ℕ) :
    completed (start [] 0 0) ((framesAtOnce n).take n) = n := by
  rw [framesAtOnce, List.take_left' List.length_replicate]
  exact (state_framesAtOnce rfl n).1

theorem due_framesAtOnce {n i : ℕ} {buf : List UInt8} {env : Env}
    (hop : (framesAtOnce n)[i]? = some (.writeFrame buf env)) :
    buf = [0] ∧
      ((Mealy.state step (start [] 0 0) ((framesAtOnce n).take i)).Due env ↔ i = n) := by
  have hi : i < n + 1 := by
    have hlt := (List.getElem?_eq_some_iff.mp hop).1
    rwa [framesAtOnce, List.length_append, List.length_replicate, List.length_singleton] at hlt
  have htime : (Mealy.state step (start [] 0 0)
      ((framesAtOnce n).take i)).timeLastVersionSent = 0 := by
    rw [framesAtOnce, List.take_append_of_le_length (by rw [List.length_replicate]; omega),
      List.take_replicate]
    exact (state_framesAtOnce rfl _).2
  rcases Nat.lt_or_ge i n with hlt | hge
  · rw [framesAtOnce, List.getElem?_append_left (by rwa [List.length_replicate]),
      List.getElem?_replicate_of_lt hlt] at hop
    cases hop
    refine ⟨rfl, iff_of_false ?_ hlt.ne⟩
    rw [Due, htime]
    decide
  · obtain rfl : i = n := by omega
    rw [framesAtOnce, List.getElem?_append_right (by rw [List.length_replicate]),
      List.length_replicate, Nat.sub_self] at hop
    cases hop
    refine ⟨rfl, iff_of_true ?_ rfl⟩
    rw [Due, htime]
    decide

/-- A version that is sent after 262144000 packets says 6291456 seconds, 24 ms for each of them. -/
theorem keepsUptime_later :
    (start [] 0 0).KeepsUptime (framesAtOnce 262144000) ∧
      ∃ packet, (Mealy.outputs step (start [] 0 0) (framesAtOnce 262144000))[262144000]? =
          some (.ok (some packet)) ∧
        packetUptime packet = some 6291456 := by
  obtain ⟨n, hn⟩ : ∃ n, 262144000 = n := ⟨_, rfl⟩
  rw [hn]
  have hops : completed (start [] 0 0) (framesAtOnce n) < 2 ^ 32 := by
    have hlast := completed_concat (start [] 0 0) (List.replicate n (.writeFrame [0] (servedAt 0)))
      (.writeFrame [0] (servedAt (11 * second)))
    rw [(state_framesAtOnce rfl n).1] at hlast
    rw [framesAtOnce]
    omega
  have hkeeps : (start [] 0 0).KeepsUptime (framesAtOnce n) := by
    refine (keepsUptime_iff [] 0 0 (by decide) hops ?_).mpr ?_
    · intro buf env hmem
      obtain ⟨i, hop⟩ := List.getElem?_of_mem hmem
      rw [(due_framesAtOnce hop).1]
      decide
    · intro i buf env taiUtcOffset hop _ hdue
      rw [(due_framesAtOnce hop).2.mp hdue, completed_framesAtOnce, hn]
  have hlast : (framesAtOnce n)[n]? = some (.writeFrame [0] (servedAt (11 * second))) := by
    rw [framesAtOnce, List.getElem?_append_right (by rw [List.length_replicate]),
      List.length_replicate, Nat.sub_self]
    rfl
  obtain ⟨packet, houtput, huptime⟩ := hkeeps n [0] _ 37 hlast ⟨rfl, rfl⟩
    ((due_framesAtOnce hlast).2.mpr rfl)
  refine ⟨hkeeps, packet, houtput, ?_⟩
  rw [huptime, completed_framesAtOnce, ← hn]

def slowFrames : List Op :=
  [.writeFrame [0] (servedAt (11 * second)), .writeFrame [0] (servedAt (22 * second))]

/-- The version after one packet is 41 seconds ahead. -/
theorem second_version_ahead :
    (∃ packet, (Mealy.outputs step (start [] 0 0) slowFrames)[1]? = some (.ok (some packet)) ∧
      packetUptime packet = some 41) ∧ ¬ (start [] 0 0).KeepsUptime slowFrames := by
  have hdue : (Mealy.state step (start [] 0 0) (slowFrames.take 1)).Due
      (servedAt (22 * second)) := by decide +kernel
  have hcompleted : completed (start [] 0 0) (slowFrames.take 1) = 1 := by decide +kernel
  have hops : completed (start [] 0 0) slowFrames < 2 ^ 32 := by decide +kernel
  obtain ⟨packet, houtput, huptime⟩ :=
    packetUptime_outputs rfl (by decide) hops (by decide) rfl ⟨rfl, rfl⟩ hdue
  rw [hcompleted] at huptime
  refine ⟨⟨packet, houtput, huptime⟩, fun h => ?_⟩
  obtain ⟨packet', houtput', huptime'⟩ := h 1 _ _ _ rfl ⟨rfl, rfl⟩ hdue
  obtain rfl : packet = packet' := by simpa [houtput] using houtput'
  rw [hcompleted] at huptime'
  exact absurd (huptime.symm.trans huptime') (by decide)

end EDI

end SourceCompanion.Output
