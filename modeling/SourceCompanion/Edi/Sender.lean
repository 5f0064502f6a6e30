import Mathlib.Tactic.Linarith
import SourceCompanion.Edi.PFT
import SourceCompanion.Run.Mealy
import SourceCompanion.Schedule.Basic

/-! # Spreading the fragments

A write cuts the packet into fragments and schedules them at equal distances. The thread of the
sender hands over what is due, and takes it out of the schedule. The schedule has one place for
each point in time, so the fragments of two packets can meet there.
-/

namespace SourceCompanion.Edi

/-- What is modelled of the configuration of a sender: the number of destinations, whether the
spreading factor is positive, and the rounded product of the factor and the duration of a packet
in microseconds over the number of fragments. -/
structure Sender.Configuration where
  destinations : ℕ
  spreads : Bool
  spread : ℕ → ℤ

/-- A sender with PFT enabled. The clock counts nanoseconds. -/
structure Sender where
  pft : PFT
  pendingFrames : Schedule ℤ (List UInt8)

namespace Sender

def microseconds (n : ℤ) : ℤ := 1000 * n

def interFragmentWaitTime (conf : Configuration) (size : ℕ) : ℤ :=
  if size > 1 then
    if conf.spreads then microseconds (conf.spread size) else microseconds 1
  else microseconds 1

def scheduled (tp wait : ℤ) : List (List UInt8) → List (ℤ × List UInt8)
  | [] => []
  | fragment :: fragments => (tp, fragment) :: scheduled (tp + wait) wait fragments

inductive Op where
  | write (afPacket : List UInt8) (now : ℤ)
  | run (now : ℤ)

inductive Answer where
  | written (result : Except PFTError Unit)
  | handed (sent : List (ℕ × List UInt8))

def Answer.handedTo (dest : ℕ) : Answer → List (List UInt8)
  | .written _ => []
  | .handed sent => (sent.filter fun p => p.1 = dest).map Prod.snd

section

variable (encode : List UInt8 → Vector UInt8 parityBytes) (conf : Configuration)

/-- Store every fragment under its time. An exception of `Assemble` leaves the schedule alone. -/
def write (s : Sender) (afPacket : List UInt8) (now : ℤ) : Except PFTError Unit × Sender :=
  match s.pft.assemble encode afPacket with
  | (.ok fragments, pft) =>
    let wait := interFragmentWaitTime conf fragments.length
    (.ok (), { pft, pendingFrames := s.pendingFrames.insertAll (scheduled now wait fragments) })
  | (.error e, pft) => (.error e, { s with pft })

/-- One iteration of the thread: what is due goes to every destination and is erased. -/
def run (s : Sender) (now : ℤ) : List (ℕ × List UInt8) × Sender :=
  ((s.pendingFrames.due now).flatMap fun fragment =>
      (List.range conf.destinations).map fun dest => (dest, fragment),
    { s with pendingFrames := s.pendingFrames.after now })

def step (s : Sender) : Op → Answer × Sender
  | .write afPacket now => ((s.write encode conf afPacket now).map .written id)
  | .run now => (s.run conf now).map .handed id

def scheduledBy (s : Sender) : Op → List (ℤ × List UInt8)
  | .write afPacket now =>
    match (s.pft.assemble encode afPacket).1 with
    | .ok fragments => scheduled now (interFragmentWaitTime conf fragments.length) fragments
    | .error _ => []
  | .run _ => []

/-- An operation is no iteration at or after a time. -/
def Op.Before (tp : ℤ) : Op → Prop
  | .write _ _ => True
  | .run now => now < tp

instance (tp : ℤ) : DecidablePred (Op.Before tp)
  | .write _ _ => inferInstanceAs (Decidable True)
  | .run now => inferInstanceAs (Decidable (now < tp))

/-- The fragments of the writes among some operations for which no later iteration among them
was at or after the time of the fragment. -/
def waiting (s : Sender) : List Op → List (ℤ × List UInt8)
  | [] => []
  | op :: ops =>
    ((s.scheduledBy encode conf op).filter fun e => ∀ op' ∈ ops, op'.Before e.1) ++
      waiting (s.step encode conf op).2 ops

/-- In a run of operations every iteration hands exactly those fragments to each destination for
which it is the first iteration at or after their time, each of them once. -/
def HandsOverOnce (s : Sender) (ops : List Op) : Prop :=
  ∀ before now rest, ops = before ++ .run now :: rest → ∀ dest < conf.destinations,
    (((Mealy.state (step encode conf) s before).step encode conf (.run now)).1.handedTo dest).Perm
      (((waiting encode conf s before).filter fun e => e.1 ≤ now).map Prod.snd)

/-- The fragments of a write have a positive distance. -/
def Spaced (s : Sender) : Op → Prop
  | .write afPacket _ => ∀ fragments ∈ (s.pft.assemble encode afPacket).1.toOption,
      0 < interFragmentWaitTime conf fragments.length
  | .run _ => True

/-- No fragment of a write is scheduled for the time of a pending one. -/
def Free (s : Sender) (op : Op) : Prop :=
  ∀ e ∈ s.scheduledBy encode conf op, e.1 ∉ s.pendingFrames.keys

instance : ∀ (s : Sender) (op : Op), Decidable (Spaced encode conf s op)
  | s, .write afPacket _ => inferInstanceAs (Decidable
      (∀ fragments ∈ (s.pft.assemble encode afPacket).1.toOption,
        0 < interFragmentWaitTime conf fragments.length))
  | _, .run _ => inferInstanceAs (Decidable True)

instance (s : Sender) (op : Op) : Decidable (Free encode conf s op) :=
  inferInstanceAs (Decidable (∀ e ∈ s.scheduledBy encode conf op, e.1 ∉ s.pendingFrames.keys))

end

section Lemmas

variable {encode : List UInt8 → Vector UInt8 parityBytes} {conf : Configuration} {s : Sender}

theorem fst_scheduled {tp wait : ℤ} {fragments : List (List UInt8)} (hwait : 0 < wait) :
    ∀ e ∈ scheduled tp wait fragments, tp ≤ e.1 := by
  induction fragments generalizing tp with
  | nil => simp [scheduled]
  | cons fragment fragments ih =>
    intro e he
    rcases List.mem_cons.mp he with rfl | he
    · exact le_rfl
    · have := ih e he
      linarith

theorem nodup_scheduled {tp wait : ℤ} {fragments : List (List UInt8)} (hwait : 0 < wait) :
    ((scheduled tp wait fragments).map Prod.fst).Nodup := by
  induction fragments generalizing tp with
  | nil => simp [scheduled]
  | cons fragment fragments ih =>
    rw [scheduled, List.map_cons, List.nodup_cons]
    constructor
    · intro hmem
      obtain ⟨e, he, heq⟩ := List.mem_map.mp hmem
      have := fst_scheduled hwait e he
      linarith
    · exact ih

theorem pendingFrames_write (s : Sender) (afPacket : List UInt8) (now : ℤ) :
    (s.step encode conf (.write afPacket now)).2.pendingFrames =
      s.pendingFrames.insertAll (s.scheduledBy encode conf (.write afPacket now)) := by
  simp only [step, write, scheduledBy]
  rcases s.pft.assemble encode afPacket with ⟨_ | _, _⟩ <;> rfl

theorem Spaced.nodup_scheduledBy {op : Op} (h : Spaced encode conf s op) :
    ((s.scheduledBy encode conf op).map Prod.fst).Nodup := by
  cases op with
  | write afPacket now =>
    simp only [scheduledBy]
    simp only [Spaced] at h
    generalize (s.pft.assemble encode afPacket).1 = result at h ⊢
    rcases result with e | fragments
    · exact List.nodup_nil
    · exact nodup_scheduled (h fragments rfl)
  | run now => exact List.nodup_nil

theorem waiting_append (s : Sender) (ops : List Op) (op : Op) :
    waiting encode conf s (ops ++ [op]) =
      ((waiting encode conf s ops).filter fun e => op.Before e.1) ++
        (Mealy.state (step encode conf) s ops).scheduledBy encode conf op := by
  induction ops generalizing s with
  | nil => simp [waiting]
  | cons op' ops ih =>
    rw [List.cons_append, waiting, waiting, ih, List.filter_append, List.filter_filter,
      Mealy.state_cons, List.append_assoc]
    congr 2
    funext e
    simp [and_comm, or_imp, forall_and]

/-- What waits is what the schedule holds. -/
theorem pendingFrames_perm_waiting {ops : List Op} {t : Sender} {op : Op}
    (ht : t = Mealy.state (step encode conf) s ops)
    (h : t.pendingFrames.entries.Perm (waiting encode conf s ops))
    (hspaced : Spaced encode conf t op) (hfree : Free encode conf t op) :
    (t.step encode conf op).2.pendingFrames.entries.Perm
      (waiting encode conf s (ops ++ [op])) := by
  rw [waiting_append, ← ht]
  cases op with
  | write afPacket now =>
    rw [pendingFrames_write]
    have hkeep : (waiting encode conf s ops).filter
        (fun e => (Op.write afPacket now).Before e.1) = waiting encode conf s ops :=
      List.filter_eq_self.mpr fun e _ => decide_eq_true trivial
    rw [hkeep]
    exact (Schedule.insertAll_perm hfree hspaced.nodup_scheduledBy).trans
      (h.append_right _)
  | run now =>
    rw [scheduledBy, List.append_nil]
    exact Schedule.after_perm h now

theorem handedTo_run (s : Sender) (now : ℤ) {dest : ℕ} (hdest : dest < conf.destinations) :
    (s.step encode conf (.run now)).1.handedTo dest = s.pendingFrames.due now := by
  have hrange : (List.range conf.destinations).filter (fun d => d = dest) = [dest] := by
    rw [List.filter_eq, List.count_eq_one_of_mem List.nodup_range (List.mem_range.mpr hdest)]
    rfl
  simp only [step, run, Prod.map, Answer.handedTo]
  induction s.pendingFrames.due now with
  | nil => rfl
  | cons fragment fragments ih =>
    rw [List.flatMap_cons, List.filter_append, List.map_append, ih, List.filter_map, List.map_map]
    change ((List.range conf.destinations).filter fun d => d = dest).map (fun _ => fragment) ++
      fragments = fragment :: fragments
    rw [hrange]
    rfl

end Lemmas

/-- In every run of a new sender in which no fragment is scheduled for the time of a pending one,
every fragment is handed to each destination exactly once, by the first iteration at or after
its time. -/
theorem handsOverOnce {encode : List UInt8 → Vector UInt8 parityBytes} {conf : Configuration}
    (pft : PFT) (ops : List Op)
    (hspaced : Mealy.Along (step encode conf) (Spaced encode conf) ⟨pft, .empty⟩ ops)
    (hfree : Mealy.Along (step encode conf) (Free encode conf) ⟨pft, .empty⟩ ops) :
    HandsOverOnce encode conf ⟨pft, .empty⟩ ops := by
  rintro before now rest rfl dest hdest
  have hbefore := ((Mealy.along_append ..).mp (hspaced.and hfree)).1
  have hperm := hbefore.invariant_history
    (I := fun v t => t = Mealy.state (step encode conf) ⟨pft, .empty⟩ v ∧
      t.pendingFrames.entries.Perm (waiting encode conf ⟨pft, .empty⟩ v))
    ⟨rfl, List.Perm.refl _⟩ (fun v op h hop => ?_) before.length
  · rw [List.take_length] at hperm
    rw [handedTo_run _ _ hdest]
    exact Schedule.due_perm hperm.2 now
  · constructor
    · simp
    · exact pendingFrames_perm_waiting h.1 h.2 hop.1 hop.2

/-- One destination, and a spreading factor of 0.95: 22.8 ms over the number of fragments. -/
def oneDestination : Configuration where
  destinations := 1
  spreads := true
  spread size := 22800 / size

def threeFragments : Sender := ⟨{ k := 207, m := 1 }, .empty⟩

def zeroParity (_ : List UInt8) : Vector UInt8 parityBytes := Vector.replicate parityBytes 0

/-- The first two fragments of a packet that is written 7.6 ms after another one take the places
of the last two fragments of that one. -/
theorem second_write_overwrites :
    interFragmentWaitTime oneDestination 3 = microseconds 7600 ∧
      (waiting zeroParity oneDestination threeFragments
        [.write [1, 2] 0, .write [3, 4] (microseconds 7600)]).length = 6 ∧
      (Mealy.state (step zeroParity oneDestination) threeFragments
        [.write [1, 2] 0, .write [3, 4] (microseconds 7600)]).pendingFrames.entries.length = 4 ∧
      ¬ HandsOverOnce zeroParity oneDestination threeFragments
        [.write [1, 2] 0, .write [3, 4] (microseconds 7600), .run (microseconds 30000)] := by
  refine ⟨by decide, by decide, by decide, fun h => ?_⟩
  have hperm := h [.write [1, 2] 0, .write [3, 4] (microseconds 7600)] (microseconds 30000) [] rfl
    0 (by decide)
  have hlength := hperm.length_eq
  revert hlength
  decide

theorem handsOverOnce_two_writes :
    HandsOverOnce zeroParity oneDestination ⟨{ k := 207, m := 1 }, .empty⟩
      [.write [1, 2] 0, .run (microseconds 500), .write [3, 4] (microseconds 1000),
        .run (microseconds 30000)] :=
  handsOverOnce _ _ (by decide) (by decide)

end Sender

end SourceCompanion.Edi
