import SourceCompanion.AVTInput.Assembled
import SourceCompanion.AVTInput.Refines

/-! # Setting the parameters again

Each time the parameters are set, the queue and the buffer of the current superframe are new. The
count of the parts and the place behind them stay as they are, so the assembly starts afresh if
no part is held at that time.
-/

namespace SourceCompanion.AVTInput

open Traced

inductive Request where
  | setDabPlusParameters (bitrate jitterBufferSize : ℕ)
  | getNextFrame (call : Call)

def serve (s : AVTInput) : Request → Option (List UInt8 × ℤ) × AVTInput
  | .setDabPlusParameters bitrate jitterBufferSize =>
    (none, s.reconfigured bitrate jitterBufferSize)
  | .getNextFrame call => s.getNextFrame call

namespace Request

/-- The parameters are set with a bitrate for DAB+. -/
def Succeeds : Request → Prop
  | .setDabPlusParameters bitrate _ => (configuredFrameSize bitrate).isSome = true
  | .getNextFrame _ => True

/-- The datagrams that are received: an empty one ends the reading. -/
def received : Request → List (Datagram × ℤ)
  | .setDabPlusParameters _ _ => []
  | .getNextFrame call => call.pending.takeWhile fun p => 0 < p.1.bytes.length

instance : ∀ request : Request, Decidable request.Succeeds
  | .setDabPlusParameters bitrate _ =>
    inferInstanceAs (Decidable ((configuredFrameSize bitrate).isSome = true))
  | .getNextFrame _ => inferInstanceAs (Decidable True)

end Request

/-- The parameters are set only while no part of a superframe is held. -/
def Idle (s : AVTInput) : Request → Prop
  | .setDabPlusParameters _ _ => s.assembly.nbFrames = 0
  | .getNextFrame _ => True

instance : ∀ (s : AVTInput) (request : Request), Decidable (Idle s request)
  | s, .setDabPlusParameters _ _ => inferInstanceAs (Decidable (s.assembly.nbFrames = 0))
  | _, .getNextFrame _ => inferInstanceAs (Decidable True)

/-- The part is the frame of one of the datagrams. -/
def PartOf (received : List (Datagram × ℤ)) (queueData : OrderedQueueData) : Prop :=
  ∃ d ts, (d, ts) ∈ received ∧ ∃ base ∈ d.base?, queueData = ⟨d.payload (d.found base), ts⟩

/-- The bytes are those of five frames of the datagrams. -/
def MadeFrom (received : List (Datagram × ℤ)) (bytes : List UInt8) : Prop :=
  ∃ parts : List OrderedQueueData, parts.length = 5 ∧
    (∀ queueData ∈ parts, PartOf received queueData) ∧
    bytes = parts.flatMap OrderedQueueData.buf

/-- A call copies every part inside the buffer, and the superframe that it returns is made from
some datagrams. -/
structure CallsAfresh (received : List (Datagram × ℤ)) (s : AVTInput) (call : Call) : Prop where
  inside : Mealy.Along Traced.step Traced.Inside ⟨s.assembly, [], 0, 0, 0⟩ (s.callEvents call)
  madeFrom : ∀ superframe ∈ (s.getNextFrame call).1, MadeFrom received superframe.1

/-- Each time the parameters are set, a fresh assembly starts: every later call copies the parts
inside the buffer, and returns only what was received since. -/
def StartsAfresh (s : AVTInput) (requests : List Request) : Prop :=
  ∀ (before after rest : List Request) (bitrate jitterBufferSize : ℕ) (call : Call),
    requests = before ++ [.setDabPlusParameters bitrate jitterBufferSize] ++ after ++
      [.getNextFrame call] ++ rest →
    CallsAfresh ((after ++ [Request.getNextFrame call]).flatMap Request.received)
      (Mealy.state serve s
        (before ++ [.setDabPlusParameters bitrate jitterBufferSize] ++ after)) call

section Coherent

/-- While no part is held, the next one is copied to the start of the buffer. -/
structure Assembly.Coherent (s : Assembly) : Prop where
  size : s.nbFrames = 0 → s.currentFrameSize = 0
  unaligned : s.frameAligned = false → s.nbFrames = 0

theorem Assembly.Coherent.step {t : Traced} (h : t.assembly.Coherent) (e : Event) :
    (t.step e).2.assembly.Coherent := by
  cases e with
  | part index queueData =>
    change (t.take index queueData).assembly.Coherent
    rcases t.take_cases index queueData with ⟨-, -, he⟩ | ⟨-, -, he⟩ | ⟨ha, -, he⟩ | ⟨-, -, he⟩ <;>
      rw [he]
    · exact h
    · exact ⟨fun hn => absurd hn (Nat.succ_ne_zero _), fun hc => nomatch hc⟩
    · exact ⟨fun hn => absurd hn (Nat.succ_ne_zero _), fun hc => nomatch ha.symm.trans hc⟩
    · exact ⟨fun _ => rfl, fun _ => rfl⟩
  | finish bufSize =>
    rcases t.finish_cases bufSize with he | ⟨-, he⟩ <;> rw [he]
    · exact h
    · exact ⟨fun _ => rfl, fun _ => rfl⟩

theorem coherent_serve {s : AVTInput} (h : s.assembly.Coherent) (request : Request) :
    (s.serve request).2.assembly.Coherent := by
  cases request with
  | setDabPlusParameters bitrate jitterBufferSize => exact ⟨h.size, h.unaligned⟩
  | getNextFrame call =>
    obtain ⟨hstate, -⟩ := state_callEvents call (s := s) (t := ⟨s.assembly, [], 0, 0, 0⟩) rfl
    change (s.getNextFrame call).2.assembly.Coherent
    rw [← hstate]
    exact Mealy.invariant (I := fun t : Traced => t.assembly.Coherent) _ h fun t e ht => ht.step e

end Coherent

section Stored

variable {frameSize : ℕ} {received : List (Datagram × ℤ)} {s : AVTInput}

/-- Every stored part is the frame of a datagram that was received. -/
def Stores (received : List (Datagram × ℤ)) (s : AVTInput) : Prop :=
  ∀ k queueData, s.ordered.stock.lookup k = some queueData → PartOf received queueData

theorem PartOf.mono {received' : List (Datagram × ℤ)} {queueData : OrderedQueueData}
    (h : PartOf received queueData) (hsub : received ⊆ received') :
    PartOf received' queueData := by
  obtain ⟨d, ts, hmem, hframe⟩ := h
  exact ⟨d, ts, hsub hmem, hframe⟩

theorem Stores.mono {received' : List (Datagram × ℤ)} (h : Stores received s)
    (hsub : received ⊆ received') : Stores received' s :=
  fun k queueData hk => (h k queueData hk).mono hsub

theorem Stores.readFrame (h : Stores received s) (hs : Stocked frameSize s) {d : Datagram}
    (hd : 0 < d.bytes.length) (ts : ℤ) :
    (s.readFrame d ts).1 = true ∧ Stores (received ++ [(d, ts)]) (s.readFrame d ts).2 := by
  have hmono : Stores (received ++ [(d, ts)]) s := h.mono (List.subset_append_left _ _)
  obtain ⟨found, next, reads, hrec, hfound, -⟩ :=
    d.frameToPush_apply (hs.size ▸ hs.size_lt) s.previousRtpIndex
  rw [AVTInput.readFrame, if_pos hd, hrec]
  cases found with
  | none => exact ⟨rfl, hmono⟩
  | some frame =>
    obtain ⟨base, hacc, rfl⟩ := (hfound frame).mp rfl
    refine ⟨rfl, fun k queueData hk => ?_⟩
    rcases OrderedQueue.lookup_of_lookup_push hk with rfl | hk
    · exact ⟨d, ts, by simp, base, hacc.base_eq, rfl⟩
    · exact hmono k queueData hk

theorem Stores.readFrames (h : Stores received s) (hs : Stocked frameSize s)
    (pending : List (Datagram × ℤ)) :
    Stores (received ++ pending.takeWhile fun p => 0 < p.1.bytes.length)
      (s.readFrames pending) := by
  induction pending generalizing received s with
  | nil => simpa [AVTInput.readFrames] using h
  | cons p pending ih =>
    obtain ⟨d, ts⟩ := p
    rw [AVTInput.readFrames]
    by_cases hd : 0 < d.bytes.length
    · obtain ⟨htrue, hstores⟩ := h.readFrame hs hd ts
      have hread := hs.readFrame d ts
      generalize s.readFrame d ts = r at htrue hstores hread ⊢
      obtain ⟨b, s'⟩ := r
      obtain rfl : b = true := htrue
      simpa [List.takeWhile_cons, hd] using ih hstores hread
    · rw [AVTInput.readFrame, if_neg hd]
      simpa [List.takeWhile_cons, hd] using h

theorem Stores.takenParts (fuel : ℕ) (h : Stores received s) :
    Stores received (assembleParts fuel s) ∧
      ∀ p ∈ AVTInput.takenParts fuel s, PartOf received p.2 := by
  induction fuel generalizing s with
  | zero => exact ⟨h, by simp [AVTInput.takenParts]⟩
  | succ fuel ih =>
    rw [AVTInput.takenParts, assembleParts]
    split
    · rcases s.ordered.pop_cases with ⟨hp, -⟩ | ⟨q', k, queueData, hp, hq⟩
      · rw [hp]
        exact ⟨h, by simp⟩
      · have hrest : ∀ assembly, Stores received { s with ordered := q', assembly } :=
          fun _ k d hk => h k d (hq.lookup_of_lookup hk)
        rw [hp]
        dsimp only
        split
        · exact ⟨hrest s.assembly, by simp⟩
        · obtain ⟨hstores, hparts⟩ := ih (hrest (s.assembly.takePart k queueData))
          refine ⟨hstores, fun p hp => ?_⟩
          rcases List.mem_cons.mp hp with rfl | hp
          · exact h k queueData hq.lookup
          · exact hparts p hp
    · exact ⟨h, by simp⟩

theorem Stores.getNextFrame (h : Stores received s) (hs : Stocked frameSize s) (call : Call) :
    Stores (received ++ (Request.getNextFrame call).received) (s.getNextFrame call).2 ∧
      ∀ e ∈ s.callEvents call, ∀ p ∈ e.popped?,
        PartOf (received ++ (Request.getNextFrame call).received) p.2 := by
  obtain ⟨hstores, htaken⟩ :=
    (h.readFrames hs call.pending).takenParts (s.readFrames call.pending).ordered.size
  refine ⟨hstores, fun e he p hp => ?_⟩
  rw [callEvents, List.mem_append] at he
  rcases he with he | he
  · obtain ⟨q, hq, rfl⟩ := List.mem_map.mp he
    obtain rfl : q = p := Option.some.inj hp
    exact htaken q hq
  · obtain rfl := List.mem_singleton.mp he
    cases hp

end Stored

section Fresh

variable {frameSize : ℕ} {received : List (Datagram × ℤ)} {s : AVTInput} {t : Traced}

/-- The buffer holds the parts of the current superframe, and they were received. -/
structure HoldsReceived (frameSize : ℕ) (received : List (Datagram × ℤ)) (t : Traced) : Prop where
  holds : Holds frameSize t
  partOf : ∀ p ∈ t.parts, PartOf received p.2

def TakesReceived (received : List (Datagram × ℤ)) (_ : Traced) (e : Event) : Prop :=
  ∀ p ∈ e.popped?, PartOf received p.2

theorem HoldsReceived.step (h : HoldsReceived frameSize received t) {e : Event}
    (hw : WellFormed frameSize t e) (hr : TakesReceived received t e) :
    HoldsReceived frameSize received (t.step e).2 := by
  refine ⟨h.holds.step hw, ?_⟩
  cases e with
  | part index queueData =>
    have hpart : PartOf received queueData := hr (index, queueData) rfl
    change ∀ p ∈ (t.take index queueData).parts, PartOf received p.2
    rcases t.take_cases index queueData with ⟨-, -, he⟩ | ⟨-, -, he⟩ | ⟨-, -, he⟩ | ⟨-, -, he⟩ <;>
      rw [he]
    · exact h.partOf
    · simpa using hpart
    · intro p hp
      rcases List.mem_append.mp hp with hp | hp
      · exact h.partOf p hp
      · obtain rfl := List.mem_singleton.mp hp
        exact hpart
    · simp
  | finish bufSize =>
    rcases t.finish_cases bufSize with he | ⟨-, he⟩ <;> rw [he]
    · exact h.partOf
    · simp

theorem HoldsReceived.madeFrom (h : HoldsReceived frameSize received t) (e : Event) :
    ∀ f ∈ (t.step e).1, MadeFrom received f.bytes := by
  cases e with
  | part index queueData => rintro f ⟨⟩
  | finish bufSize =>
    intro f hf
    obtain ⟨hdone, hparts, hbytes⟩ := (h.holds.finish bufSize).2 f hf
    refine ⟨f.parts.map Prod.snd, ?_, fun queueData hmem => ?_, ?_⟩
    · rw [List.length_map, hparts, h.holds.count, hdone]
    · obtain ⟨p, hp, rfl⟩ := List.mem_map.mp hmem
      exact h.partOf p (hparts ▸ hp)
    · rw [hbytes, List.flatMap_map]

/-- Since the parameters were set, nothing is stored and held that was not received. -/
structure Fresh (received : List (Datagram × ℤ)) (s : AVTInput) : Prop where
  stores : Stores received s
  holds : ∃ frameSize parts, Stocked frameSize s ∧
    HoldsReceived frameSize received ⟨s.assembly, parts, 0, 0, 0⟩

theorem Fresh.mono {received' : List (Datagram × ℤ)} (h : Fresh received s)
    (hsub : received ⊆ received') : Fresh received' s := by
  obtain ⟨hstores, frameSize, parts, hstocked, hholds, hparts⟩ := h
  exact ⟨hstores.mono hsub, frameSize, parts, hstocked, hholds,
    fun p hp => (hparts p hp).mono hsub⟩

theorem fresh_reconfigured {bitrate : ℕ} (h : s.assembly.Coherent)
    (hn : s.assembly.nbFrames = 0) (hb : (configuredFrameSize bitrate).isSome = true)
    (jitterBufferSize : ℕ) : Fresh [] (s.reconfigured bitrate jitterBufferSize) := by
  obtain ⟨configured, hset⟩ := Option.isSome_iff_exists.mp hb
  simp only [configuredFrameSize] at hset
  split at hset
  · cases hset
  · rename_i hvalid
    refine ⟨fun k queueData hk => ?_, bitrate * 3, [], ⟨rfl, by omega, rfl, ?_⟩, ?_, by simp⟩
    · simp [reconfigured] at hk
    · intro k queueData hk
      simp [reconfigured] at hk
    · refine ⟨?_, hn.symm, ?_, ?_, ?_, h.unaligned⟩
      · simp only [reconfigured, List.length_replicate]
        omega
      · exact hn.le.trans (Nat.zero_le _)
      · simp [reconfigured, hn, h.size hn]
      · simp [reconfigured, h.size hn]

theorem assembly_step_of_eq {t' : Traced} (h : t.assembly = t'.assembly) (e : Event) :
    (t.step e).2.assembly = (t'.step e).2.assembly := by
  cases e with
  | part index queueData =>
    change (t.take index queueData).assembly = (t'.take index queueData).assembly
    rw [assembly_take, assembly_take, h]
  | finish bufSize =>
    rw [Traced.step, Traced.step, h]
    split <;> rfl

theorem along_inside_of_eq {es : List Event} {t t' : Traced} (h : t.assembly = t'.assembly)
    (hinside : Mealy.Along Traced.step Inside t es) : Mealy.Along Traced.step Inside t' es := by
  induction es generalizing t t' with
  | nil => trivial
  | cons e es ih =>
    obtain ⟨hfirst, hrest⟩ := hinside
    refine ⟨?_, ih (assembly_step_of_eq h e) hrest⟩
    cases e with
    | part index queueData => rwa [Inside, ← h]
    | finish bufSize => trivial

/-- A call takes only what was received before and what it receives itself. -/
theorem Fresh.getNextFrame (h : Fresh received s) (call : Call) :
    Fresh (received ++ (Request.getNextFrame call).received) (s.getNextFrame call).2 ∧
      CallsAfresh (received ++ (Request.getNextFrame call).received) s call := by
  obtain ⟨hstores, frameSize, parts, hstocked, hholds, hparts⟩ := h
  set received' := received ++ (Request.getNextFrame call).received
  set t : Traced := ⟨s.assembly, parts, 0, 0, 0⟩ with ht
  obtain ⟨hstocked', hwell⟩ := hstocked.getNextFrame (t := t) rfl call
  obtain ⟨hstores', htakes⟩ := hstores.getNextFrame hstocked call
  obtain ⟨hstate, hout⟩ := state_callEvents call (s := s) (t := t) rfl
  have hinit : HoldsReceived frameSize received' t :=
    ⟨hholds, fun p hp => (hparts p hp).mono (List.subset_append_left _ _)⟩
  have halong := hwell.and (Mealy.along_of_forall
    (G := TakesReceived received') (s := t) fun e he _ => htakes e he)
  have hkept : ∀ t e, HoldsReceived frameSize received' t →
      WellFormed frameSize t e ∧ TakesReceived received' t e →
        HoldsReceived frameSize received' (t.step e).2 := fun t e ht he => ht.step he.1 he.2
  constructor
  · have hlast := halong.invariant hinit hkept
    refine ⟨hstores', frameSize, _, hstocked', ?_, hlast.partOf⟩
    rw [← hstate]
    exact ⟨hlast.holds.buffer, hlast.holds.count, hlast.holds.count_le, hlast.holds.size,
      hlast.holds.bytes, hlast.holds.unaligned⟩
  · constructor
    · exact along_inside_of_eq (t := t) rfl
        (halong.of_invariant hinit hkept fun t e ht he => ht.holds.inside he.1)
    · intro superframe hsuperframe
      have hmem := Option.mem_toList.mpr hsuperframe
      rw [← hout] at hmem
      obtain ⟨f, hf, rfl⟩ := List.mem_map.mp hmem
      exact halong.forall_outputs (P := fun out => ∀ f ∈ out, MadeFrom received' f.bytes) hinit
        hkept (fun t e ht _ => ht.madeFrom e) _ (List.reduceOption_mem_iff.mp hf) f rfl

theorem Fresh.serve (h : Fresh received s) (hs : s.assembly.Coherent) {request : Request}
    (hsucceeds : request.Succeeds) (hidle : Idle s request) :
    Fresh (received ++ request.received) (s.serve request).2 := by
  cases request with
  | setDabPlusParameters bitrate jitterBufferSize =>
    exact (fresh_reconfigured hs hidle hsucceeds jitterBufferSize).mono (List.nil_subset _)
  | getNextFrame call => exact (h.getNextFrame call).1

end Fresh

/-- If the parameters are only set while no part is held, a fresh assembly starts each time. -/
theorem startsAfresh_of_coherent {s : AVTInput} (hs : s.assembly.Coherent)
    {requests : List Request} (hsucceeds : ∀ request ∈ requests, request.Succeeds)
    (hidle : Mealy.Along serve Idle s requests) : StartsAfresh s requests := by
  rintro before after rest bitrate jitterBufferSize call rfl
  simp only [Mealy.along_append, Mealy.state_append, Mealy.along_cons, Mealy.state_cons,
    Mealy.along_nil, Mealy.state_nil, and_true] at hidle ⊢
  obtain ⟨⟨⟨⟨-, hset⟩, hafter⟩, -⟩, -⟩ := hidle
  have hcoherent : (Mealy.state serve s before).assembly.Coherent :=
    Mealy.invariant (I := fun s : AVTInput => s.assembly.Coherent) before hs
      fun s request h => coherent_serve h request
  have hfresh : Fresh [] ((Mealy.state serve s before).serve
      (.setDabPlusParameters bitrate jitterBufferSize)).2 :=
    fresh_reconfigured hcoherent hset
      (hsucceeds (.setDabPlusParameters bitrate jitterBufferSize) (by simp)) jitterBufferSize
  have hguard : ∀ request ∈ after, ∀ _ : AVTInput, request.Succeeds := fun request hr _ =>
    hsucceeds request (by simp [hr])
  have hrun := (hafter.and (Mealy.along_of_forall hguard)).invariant_history
    (I := fun v s => Fresh (v.flatMap Request.received) s ∧ s.assembly.Coherent)
    ⟨hfresh, coherent_serve hcoherent _⟩
    (fun v request h hr => ⟨by
      rw [List.flatMap_append, List.flatMap_singleton]
      exact h.1.serve h.2 hr.2 hr.1, coherent_serve h.2 request⟩) after.length
  rw [List.take_length] at hrun
  rw [List.flatMap_append, List.flatMap_singleton]
  exact (hrun.1.getNextFrame call).2

namespace Endpoint

/-- The states after some requests with their answers: datagrams arrive and PAD frames are stored
between the successful ones. -/
inductive Session (os : Os) (start : Endpoint) :
    List Request → List (Option (List UInt8 × ℤ)) → Endpoint → Prop where
  | start : Session os start [] [] start
  | arriveInput {requests : List Request} {answers : List (Option (List UInt8 × ℤ))}
      {s : Endpoint} (d : Datagram) (ts : ℤ) : Session os start requests answers s →
      Session os start requests answers { s with inputSocket := { s.inputSocket with
        pending := s.inputSocket.pending ++ [(d, ts)] } }
  | arrivePad {requests : List Request} {answers : List (Option (List UInt8 × ℤ))}
      {s : Endpoint} (d : List UInt8) : Session os start requests answers s →
      Session os start requests answers { s with inputPadSocket := { s.inputPadSocket with
        pending := s.inputPadSocket.pending ++ [d] } }
  | pushPADFrame {requests : List Request} {answers : List (Option (List UInt8 × ℤ))}
      {s : Endpoint} (buf : List UInt8) : Session os start requests answers s →
      Session os start requests answers (s.pushPADFrame buf)
  | setDabPlusParameters {requests : List Request} {answers : List (Option (List UInt8 × ℤ))}
      {s s' : Endpoint} {bitrate channels sampleRate : ℤ} {sbr ps : Bool} :
      Session os start requests answers s →
      s.setDabPlusParameters os bitrate channels sampleRate sbr ps = .ok (0, s') →
      Session os start (requests ++ [.setDabPlusParameters bitrate.toNat s.jitterBufferSize])
        (answers ++ [none]) s'
  | getNextFrame {requests : List Request} {answers : List (Option (List UInt8 × ℤ))}
      {s s' : Endpoint} {fuel bufSize : ℕ} {answer : Option (List UInt8 × ℤ)} :
      Session os start requests answers s →
      s.getNextFrame os fuel bufSize = .ok (answer, s') →
      Session os start (requests ++ [.getNextFrame ⟨s.inputSocket.pending, bufSize⟩])
        (answers ++ [answer]) s'

/-- The requests were answered as the input does, with open sockets. -/
structure Refines (start : Endpoint) (requests : List Request)
    (answers : List (Option (List UInt8 × ℤ))) (s : Endpoint) : Prop where
  answers_eq : answers = Mealy.outputs serve start.input requests
  input_eq : s.input = Mealy.state serve start.input requests
  succeeds : ∀ request ∈ requests, request.Succeeds
  inputBlocking : s.inputSocket.blocking = false
  padBlocking : s.inputPadSocket.blocking = false

section Refines

variable {os : Os} {start s s' : Endpoint} {requests : List Request}
  {answers : List (Option (List UInt8 × ℤ))}

theorem Refines.serve (h : Refines start requests answers s) {request : Request}
    {answer : Option (List UInt8 × ℤ)} (hconfigured : Configured s s')
    (hserve : (answer, s'.input) = s.input.serve request) (hsucceeds : request.Succeeds) :
    Refines start (requests ++ [request]) (answers ++ [answer]) s' where
  answers_eq := by
    rw [Mealy.outputs_append, ← h.answers_eq, ← h.input_eq, Mealy.outputs_cons, ← hserve]
    rfl
  input_eq := by
    rw [Mealy.state_append, ← h.input_eq, Mealy.state_cons, ← hserve]
    rfl
  succeeds := List.forall_mem_append.mpr ⟨h.succeeds, List.forall_mem_singleton.mpr hsucceeds⟩
  inputBlocking := hconfigured.inputBlocking.trans h.inputBlocking
  padBlocking := hconfigured.padBlocking.trans h.padBlocking

theorem Refines.setDabPlusParameters (h : Refines start requests answers s)
    {bitrate channels sampleRate : ℤ} {sbr ps : Bool}
    (hset : s.setDabPlusParameters os bitrate channels sampleRate sbr ps = .ok (0, s')) :
    Refines start (requests ++ [.setDabPlusParameters bitrate.toNat s.jitterBufferSize])
      (answers ++ [none]) s' := by
  have hconfigured := ends_setDabPlusParameters os s bitrate channels sampleRate sbr ps
  have hreconfigured :=
    ends_setDabPlusParameters_reconfigured os s bitrate channels sampleRate sbr ps
  rw [hset] at hconfigured hreconfigured
  obtain ⟨hsize, hinput⟩ := hreconfigured rfl
  exact h.serve hconfigured (congrArg (none, ·) hinput)
    (Option.isSome_iff_exists.mpr ⟨_, hsize⟩)

theorem Refines.getNextFrame (h : Refines start requests answers s) {fuel bufSize : ℕ}
    {answer : Option (List UInt8 × ℤ)}
    (hcall : s.getNextFrame os fuel bufSize = .ok (answer, s')) :
    Refines start (requests ++ [.getNextFrame ⟨s.inputSocket.pending, bufSize⟩])
      (answers ++ [answer]) s' := by
  have hends := ends_getNextFrame os h.inputBlocking h.padBlocking fuel bufSize
  rw [hcall] at hends
  exact h.serve hends.1 hends.2 trivial

theorem Session.refines (hinput : start.inputSocket.blocking = false)
    (hpad : start.inputPadSocket.blocking = false) (h : Session os start requests answers s) :
    Refines start requests answers s := by
  induction h with
  | start => exact ⟨rfl, rfl, by simp, hinput, hpad⟩
  | arriveInput d ts _ ih =>
    exact ⟨ih.answers_eq, ih.input_eq, ih.succeeds, ih.inputBlocking, ih.padBlocking⟩
  | arrivePad d _ ih =>
    exact ⟨ih.answers_eq, ih.input_eq, ih.succeeds, ih.inputBlocking, ih.padBlocking⟩
  | pushPADFrame buf _ ih =>
    obtain ⟨padFrameQueue, hpush⟩ := pushPADFrame_eq _ buf
    rw [hpush]
    exact ⟨ih.answers_eq, ih.input_eq, ih.succeeds, ih.inputBlocking, ih.padBlocking⟩
  | setDabPlusParameters _ hset ih => exact ih.setDabPlusParameters hset
  | getNextFrame _ hcall ih => exact ih.getNextFrame hcall

end Refines

theorem session_startsAfresh {os : Os} {inputUri outputUri : List Char} {padPort : UInt32}
    {jitterBufferSize fuel : ℕ} {start s : Endpoint} {requests : List Request}
    {answers : List (Option (List UInt8 × ℤ))}
    (hprepare : (new inputUri outputUri padPort jitterBufferSize).prepare os fuel =
      .ok (0, start))
    (hport : 0 < padPort) (h : Session os start requests answers s)
    (hidle : Mealy.Along serve Idle start.input requests) :
    answers = Mealy.outputs serve start.input requests ∧ StartsAfresh start.input requests := by
  have hends := ends_prepare os (s := new inputUri outputUri padPort jitterBufferSize) fuel rfl
  have hsame := ends_prepare_sameInput os fuel (new inputUri outputUri padPort jitterBufferSize)
  rw [hprepare] at hends hsame
  have hprepared : Prepared padPort start := hends rfl
  have hcoherent : start.input.assembly.Coherent := by
    rw [hsame.1]
    exact ⟨fun _ => rfl, fun _ => rfl⟩
  have hrefines :=
    h.refines hprepared.input (hprepared.opened (UInt32.pos_iff_ne_zero.mp hport))
  exact ⟨hrefines.answers_eq, startsAfresh_of_coherent hcoherent hrefines.succeeds hidle⟩

end Endpoint

/-- In every run of successful requests of a new input, a fresh assembly starts each time the
parameters are set, if they are only set while no part of a superframe is held. -/
theorem startsAfresh_of_idle (inputUri outputUri : List Char) (padPort : UInt32)
    (jitterBufferSize : ℕ) {requests : List Request}
    (hsucceeds : ∀ request ∈ requests, request.Succeeds)
    (hidle : Mealy.Along serve Idle
      (Endpoint.new inputUri outputUri padPort jitterBufferSize).input requests) :
    StartsAfresh (Endpoint.new inputUri outputUri padPort jitterBufferSize).input requests :=
  startsAfresh_of_coherent ⟨fun _ => rfl, fun _ => rfl⟩ hsucceeds hidle

def partDatagram (bitrate number : ℕ) : Datagram where
  bytes := [0, 0x1F, 0x90, 0xCA, 0, 0, 0, 0, 0, 0, 0, 0, 0, UInt8.ofNat (number % 250),
    UInt8.ofNat (number / 250 * 8), 1, UInt8.ofNat (bitrate * 3 / 256), UInt8.ofNat (bitrate * 3),
    0, 0, 0, 0, 0, 0] ++ List.replicate (bitrate * 3) (UInt8.ofNat number)
  beyond _ := 0

def configureAndCall (bitrate : ℕ) (numbers : List ℕ) : List Request :=
  [.setDabPlusParameters bitrate 40,
    .getNextFrame ⟨numbers.map fun n => (partDatagram bitrate n, 0), 15 * bitrate⟩]

instance : ∀ (t : Traced) (e : Event), Decidable (Inside t e)
  | t, .part index queueData => inferInstanceAs (Decidable
      (t.assembly.verdict index = .started ∨ t.assembly.verdict index = .accepted →
        t.assembly.currentFrameSize + queueData.buf.length ≤ t.assembly.currentFrame.length))
  | _, .finish _ => inferInstanceAs (Decidable True)

/-- Four parts are held when the bitrate is halved, so the next one is copied behind the end of the
new buffer. -/
theorem partial_superframe_not_afresh :
    (∀ request ∈ configureAndCall 16 [0, 1, 2, 3] ++ configureAndCall 8 [4], request.Succeeds) ∧
      ¬ StartsAfresh (Endpoint.inputOn 9000).input
        (configureAndCall 16 [0, 1, 2, 3] ++ configureAndCall 8 [4]) := by
  refine ⟨by decide, fun h => ?_⟩
  have hinside := (h (configureAndCall 16 [0, 1, 2, 3]) [] [] 8 40 _ rfl).inside
  revert hinside
  decide +kernel

theorem startsAfresh_between_superframes :
    (Mealy.outputs serve (Endpoint.inputOn 9000).input
        (configureAndCall 16 [0, 1, 2, 3, 4] ++ configureAndCall 8 [5, 6, 7, 8, 9])).map
          (Option.map fun superframe => superframe.1.length) =
        [none, some 240, none, some 120] ∧
      StartsAfresh (Endpoint.inputOn 9000).input
        (configureAndCall 16 [0, 1, 2, 3, 4] ++ configureAndCall 8 [5, 6, 7, 8, 9]) :=
  ⟨by decide +kernel, startsAfresh_of_idle _ _ _ _ (by decide) (by decide +kernel)⟩

end SourceCompanion.AVTInput
