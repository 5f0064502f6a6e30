import SourceCompanion.Output.EDI
import SourceCompanion.Run.Mealy

/-! # The time stamps of the EDI output

`setTist` sets the time base in seconds but adds the milliseconds to what earlier calls left.
The time stamp of a packet is therefore the one of the last call exactly when the milliseconds
of all calls before it cancel out.
-/

namespace SourceCompanion.Output

open Bytes Tlv Edi

/-- The arguments of a call of `setTist`. The capture time is in nanoseconds after the epoch. -/
structure Tist where
  enable : Bool
  delayMs : UInt32
  ts : ℕ

namespace Tist

/-- The instant in milliseconds that the call stands for. -/
def instant (t : Tist) : ℕ := (t.ts + t.delayMs.toNat * 1000000) / 1000000

def seconds (t : Tist) : ℕ := t.instant / 1000

def ms (t : Tist) : ℕ := t.instant % 1000

theorem ms_lt (t : Tist) : t.ms < 1000 := Nat.mod_lt _ (by omega)

end Tist

inductive Op
  | setTist (t : Tist)
  | updateAudioLevels (audioLeft audioRight : Int16)
  | writeFrame (buf : List UInt8) (env : Env)

def tists (ops : List Op) : List Tist :=
  ops.filterMap fun op =>
    match op with
    | .setTist t => some t
    | _ => none

/-- The time stamp of a packet. -/
def packetTsta (packet : List UInt8) : Option ℕ :=
  (tagValue EDI.dstiName packet).bind fun value => (readDSTI value).tsta

namespace EDI

def start (odrVersionTag : List UInt8) (tagpacketAlignment : UInt32) (steady : ℤ) : EDI where
  odrVersionTag
  tagpacketAlignment
  timeLastVersionSent := steady

def step (s : EDI) : Op → Except String (Option (List UInt8)) × EDI
  | .setTist t => (s.setTist t.enable t.delayMs t.ts).map (Except.map fun _ => none) id
  | .updateAudioLevels audioLeft audioRight =>
    (.ok none, s.updateAudioLevels audioLeft audioRight)
  | .writeFrame buf env => (s.writeFrame buf env).map (Except.map some) id

/-- Every packet that is sent with time stamps enabled carries the milliseconds of the last
call of `setTist`, and the time base is in its seconds. -/
def KeepsTimestamp (s : EDI) (ops : List Op) : Prop :=
  ∀ i packet t, (Mealy.outputs step s ops)[i]? = some (.ok (some packet)) →
    (tists (ops.take i)).getLast? = some t → t.enable = true →
      packetTsta packet = some (t.ms * 2 ^ 14) ∧
        (Mealy.state step s (ops.take i)).ediTime = t.seconds

/-- Whenever a packet is sent with time stamps enabled, the milliseconds of all calls of
`setTist` but the last add up to a multiple of 1024. -/
def CancelsEarlier (ops : List Op) : Prop :=
  ∀ i buf env taiUtcOffset t, ops[i]? = some (.writeFrame buf env) →
    env.Serves taiUtcOffset →
    (tists (ops.take i)).getLast? = some t → t.enable = true →
      ((tists (ops.take i)).dropLast.map Tist.ms).sum % 1024 = 0

/-! ## Steps -/

/-- After the epoch `setTist` does not throw. -/
theorem setTist_eq (s : EDI) (t : Tist) :
    s.setTist t.enable t.delayMs t.ts = (.ok (), { s with
      tist := t.enable
      delayMs := t.delayMs
      ediTime := t.seconds
      timestamp := s.timestamp + UInt32.ofNat t.ms <<< 14 }) := by
  have hseconds : ((t.ts : ℤ) + t.delayMs.toNat * millisecond).tdiv second = t.seconds := by
    rw [Int.tdiv_eq_ediv_of_nonneg (by simp only [millisecond]; omega)]
    simp only [millisecond, second, Tist.seconds, Tist.instant]
    omega
  have hms : ((t.ts : ℤ) + t.delayMs.toNat * millisecond - t.seconds * second).tdiv millisecond =
      t.ms := by
    have hpos : 0 ≤ (t.ts : ℤ) + t.delayMs.toNat * millisecond - t.seconds * second := by
      simp only [millisecond, second, Tist.seconds, Tist.instant]
      omega
    rw [Int.tdiv_eq_ediv_of_nonneg hpos]
    simp only [millisecond, second, Tist.seconds, Tist.instant, Tist.ms]
    omega
  have hofInt : UInt32.ofInt (t.ms : ℤ) = UInt32.ofNat t.ms := by
    have hlt := t.ms_lt
    rw [UInt32.ofInt, Int.emod_eq_of_lt (by omega) (by omega), Int.toNat_natCast]
  simp only [setTist, hseconds, hms, hofInt]
  refine if_neg ?_
  simp only [millisecond, second, Tist.seconds, Tist.instant]
  omega

/-- What the calls of `setTist` leave in the state. -/
structure Follows (s : EDI) (calls : List Tist) : Prop where
  timestamp : s.timestamp.toNat = (calls.map Tist.ms).sum * 2 ^ 14 % 2 ^ 32
  ediTime : ∀ t, calls.getLast? = some t → s.ediTime = t.seconds
  tist : ∀ t, calls.getLast? = some t → s.tist = t.enable
  dlfc : s.tagDSTI.dlfc.toNat < 5000

variable {s : EDI} {calls : List Tist}

theorem follows_start (odrVersionTag : List UInt8) (tagpacketAlignment : UInt32) (steady : ℤ) :
    Follows (start odrVersionTag tagpacketAlignment steady) [] where
  timestamp := rfl
  ediTime := nofun
  tist := nofun
  dlfc := show (0 : UInt16).toNat < 5000 by decide

theorem Follows.setTist (h : Follows s calls) (t : Tist) :
    Follows (s.setTist t.enable t.delayMs t.ts).2 (calls ++ [t]) := by
  have hlast : ∀ u, (calls ++ [t]).getLast? = some u → t = u := fun u hu =>
    Option.some.inj ((List.getLast?_concat ..).symm.trans hu)
  have hms : (UInt32.ofNat t.ms <<< 14).toNat = t.ms * 2 ^ 14 % 2 ^ 32 := by
    have hlt := t.ms_lt
    rw [UInt32.toNat_shiftLeft, UInt32.toNat_ofNat_of_lt' (Nat.lt_trans hlt (by decide)),
      Nat.shiftLeft_eq, show (14 : UInt32).toNat % 32 = 14 from rfl]
  rw [setTist_eq]
  refine ⟨?_, fun u hu => ?_, fun u hu => ?_, h.dlfc⟩
  · rw [UInt32.toNat_add, h.timestamp, hms, ← Nat.add_mod, ← Nat.add_mul, List.map_append,
      List.sum_append, List.map_singleton, List.sum_singleton]
  · rw [hlast u hu]
  · rw [hlast u hu]

theorem Follows.writeFrame (h : Follows s calls) (buf : List UInt8) (env : Env) :
    Follows (s.writeFrame buf env).2 calls := by
  by_cases hserves : ∃ taiUtcOffset, env.Serves taiUtcOffset
  · obtain ⟨taiUtcOffset, hserves⟩ := hserves
    obtain ⟨packet, hwrite, -⟩ := writeFrame_of_serves hserves s buf
    rw [hwrite]
    exact ⟨h.timestamp, h.ediTime, h.tist, TagDSTI.dlfc_assemble_lt _⟩
  · obtain ⟨e, s', hwrite, htimestamp, hediTime, htist, hdlfc⟩ :=
      writeFrame_of_not_serves hserves s buf
    rw [hwrite]
    refine ⟨htimestamp ▸ h.timestamp, hediTime ▸ h.ediTime, htist ▸ h.tist, ?_⟩
    rcases hdlfc with hdlfc | ⟨taiUtcOffset, hdlfc⟩
    · rw [hdlfc]
      exact h.dlfc
    · rw [hdlfc]
      exact TagDSTI.dlfc_assemble_lt _

theorem Follows.step (h : Follows s calls) (op : Op) :
    Follows (s.step op).2 (calls ++ tists [op]) := by
  cases op with
  | setTist t =>
    rw [show tists [Op.setTist t] = [t] from rfl, EDI.step, Prod.map_snd, id]
    exact h.setTist t
  | updateAudioLevels audioLeft audioRight =>
    rw [show tists [Op.updateAudioLevels audioLeft audioRight] = [] from rfl, List.append_nil]
    exact ⟨h.timestamp, h.ediTime, h.tist, h.dlfc⟩
  | writeFrame buf env =>
    rw [show tists [Op.writeFrame buf env] = [] from rfl, List.append_nil, EDI.step,
      Prod.map_snd, id]
    exact h.writeFrame buf env

theorem Follows.state (h : Follows s calls) (ops : List Op) :
    Follows (Mealy.state EDI.step s ops) (calls ++ tists ops) := by
  induction ops generalizing s calls with
  | nil => simpa [tists] using h
  | cons op ops ih =>
    have hcons : tists (op :: ops) = tists [op] ++ tists ops := List.filterMap_append (l := [op])
    rw [hcons, ← List.append_assoc]
    exact ih (h.step op)

/-! ## Packets -/

variable {buf packet : List UInt8} {env : Env} {taiUtcOffset : ℤ} {t : Tist}

theorem Follows.packetTsta (h : Follows s calls) (hlast : calls.getLast? = some t)
    (henable : t.enable = true) (hserves : env.Serves taiUtcOffset)
    (hwrite : (s.writeFrame buf env).1 = .ok packet) :
    packetTsta packet = some ((calls.map Tist.ms).sum % 1024 * 2 ^ 14) := by
  obtain ⟨packet', hwrite', hdsti, -⟩ := writeFrame_of_serves hserves s buf
  obtain rfl : packet' = packet := by
    rw [hwrite'] at hwrite
    exact Except.ok.inj hwrite
  have hatstf : (s.dstiToSend taiUtcOffset).atstf = true := (h.tist t hlast).trans henable
  have htsta : (s.dstiToSend taiUtcOffset).tsta.toNat % 2 ^ 24 =
      (calls.map Tist.ms).sum % 1024 * 2 ^ 14 := by
    rw [show (s.dstiToSend taiUtcOffset).tsta = s.timestamp &&& 0xffffff from rfl,
      toNat_mask _ _ (show (0xffffff : UInt32).toNat = 2 ^ 24 - 1 from rfl), h.timestamp]
    omega
  have hdlfc : (s.dstiToSend taiUtcOffset).dlfc.toNat < 5000 := h.dlfc
  rw [Output.packetTsta, hdsti, Option.bind_some, TagDSTI.readDSTI_value hdlfc,
    Management.tsta, if_pos hatstf, Option.map_some, htsta]

theorem sum_ms (hlast : calls.getLast? = some t) :
    (calls.map Tist.ms).sum = (calls.dropLast.map Tist.ms).sum + t.ms := by
  conv_lhs => rw [← List.dropLast_append_getLast? t hlast]
  rw [List.map_append, List.sum_append, List.map_singleton, List.sum_singleton]

theorem writeFrame_of_step {op : Op} (h : (s.step op).1 = .ok (some packet)) :
    ∃ buf env taiUtcOffset, op = .writeFrame buf env ∧
      env.Serves taiUtcOffset ∧ (s.writeFrame buf env).1 = .ok packet := by
  cases op with
  | setTist t =>
    rw [step, setTist_eq] at h
    simp [Except.map] at h
  | updateAudioLevels audioLeft audioRight => simp [step] at h
  | writeFrame buf env =>
    rw [step, Prod.map_fst] at h
    by_cases hserves : ∃ taiUtcOffset, env.Serves taiUtcOffset
    · obtain ⟨taiUtcOffset, hserves⟩ := hserves
      obtain ⟨packet', hwrite, -⟩ := writeFrame_of_serves hserves s buf
      rw [hwrite] at h
      obtain rfl := Option.some.inj (Except.ok.inj h)
      exact ⟨buf, env, taiUtcOffset, rfl, hserves, congrArg Prod.fst hwrite⟩
    · obtain ⟨e, s', hwrite, -⟩ := writeFrame_of_not_serves hserves s buf
      rw [hwrite] at h
      simp [Except.map] at h

theorem outputs_of_writeFrame {ops : List Op} {i : ℕ} (s : EDI)
    (hop : ops[i]? = some (.writeFrame buf env)) (hserves : env.Serves taiUtcOffset) :
    ∃ packet, (Mealy.outputs step s ops)[i]? = some (.ok (some packet)) ∧
      ((Mealy.state step s (ops.take i)).writeFrame buf env).1 = .ok packet := by
  obtain ⟨packet, hwrite, -⟩ := writeFrame_of_serves hserves (Mealy.state step s (ops.take i)) buf
  refine ⟨packet, ?_, congrArg Prod.fst hwrite⟩
  rw [Mealy.outputs_getElem?, hop, Option.map_some, step, Prod.map_fst, hwrite]
  rfl

/-- The time stamps are those of the last call exactly when the milliseconds of the earlier
calls cancel out. -/
theorem keepsTimestamp_iff (odrVersionTag : List UInt8) (tagpacketAlignment : UInt32)
    (steady : ℤ) (ops : List Op) :
    (start odrVersionTag tagpacketAlignment steady).KeepsTimestamp ops ↔ CancelsEarlier ops := by
  have hfollows : ∀ i, Follows (Mealy.state step (start odrVersionTag tagpacketAlignment steady)
      (ops.take i)) (tists (ops.take i)) := fun i =>
    (follows_start odrVersionTag tagpacketAlignment steady).state (ops.take i)
  constructor
  · intro h i buf env taiUtcOffset t hop hserves hlast henable
    obtain ⟨packet, houtput, hwrite⟩ := outputs_of_writeFrame
      (start odrVersionTag tagpacketAlignment steady) hop hserves
    have hms := t.ms_lt
    have htsta := (h i packet t houtput hlast henable).1
    rw [(hfollows i).packetTsta hlast henable hserves hwrite, sum_ms hlast,
      Option.some.injEq] at htsta
    omega
  · intro h i packet t houtput hlast henable
    rw [Mealy.outputs_getElem?] at houtput
    obtain ⟨op, hop, hstep⟩ := Option.map_eq_some_iff.mp houtput
    obtain ⟨buf, env, taiUtcOffset, rfl, hserves, hwrite⟩ := writeFrame_of_step hstep
    refine ⟨?_, (hfollows i).ediTime t hlast⟩
    have hms := t.ms_lt
    have hcancel := h i buf env taiUtcOffset t hop hserves hlast henable
    rw [(hfollows i).packetTsta hlast henable hserves hwrite, sum_ms hlast]
    congr 2
    omega

/-- Two calls a millisecond and two milliseconds after the epoch, and a frame. -/
def twoCalls : List Op :=
  [.setTist ⟨true, 0, 1000000⟩, .setTist ⟨true, 0, 2000000⟩,
    .writeFrame [0] { taiOffset := .ok 37, steady := 0 }]

/-- The packet carries three milliseconds instead of two. -/
theorem second_call_adds_up : ¬ (start [] 0 0).KeepsTimestamp twoCalls := by
  intro h
  obtain ⟨packet, houtput, hwrite⟩ :=
    outputs_of_writeFrame (start [] 0 0) (show twoCalls[2]? = some _ from rfl) ⟨rfl, rfl⟩
  have hfollows := (follows_start [] 0 0).state (twoCalls.take 2)
  have hlast : (tists (twoCalls.take 2)).getLast? = some ⟨true, 0, 2000000⟩ := rfl
  have htsta := (h 2 packet _ houtput hlast rfl).1
  rw [hfollows.packetTsta hlast rfl ⟨rfl, rfl⟩ hwrite] at htsta
  exact absurd htsta (by decide)

end EDI

end SourceCompanion.Output
