import Mathlib.Data.List.DropRight
import Mathlib.Data.List.Nodup
import SourceCompanion.Run.Mealy
import SourceCompanion.Socket.ThreadsafeQueue

/-! # The dispatcher of a stream to its clients

A call of `write` goes through the connections twice, to push the buffer and to check the size of
the queue. It holds the mutex of the dispatcher meanwhile, so that no client is accepted, but the
threads of the connections take buffers out of their queues at any time.
-/

namespace SourceCompanion.Socket

/-- A client with its queue. The name is the number of clients accepted before it. -/
structure TCPConnection where
  name : ℕ
  queue : ThreadsafeQueue (List UInt8) := {}
  running : Bool := true
deriving DecidableEq

inductive TCPDataDispatcher.Writer where
  | outside
  | pushing (data : List UInt8) (names : List ℕ)
  | checking (names : List ℕ)
deriving DecidableEq

structure TCPDataDispatcher where
  maxQueueSize : ℕ
  buffersToPreroll : ℕ
  running : Bool := true
  exceptionData : String := ""
  prerollQueue : List (List UInt8) := []
  connections : List TCPConnection := []
  accepted : ℕ := 0
  writer : TCPDataDispatcher.Writer := .outside
deriving DecidableEq

def TCPConnection.push (c : TCPConnection) (data : List UInt8) : TCPConnection :=
  { c with queue := (c.queue.push data 0).2 }

/-- The thread of a client takes a buffer, which is the answer, and sends it. It ends after an empty
buffer, and after one that cannot be sent. -/
def TCPConnection.process (c : TCPConnection) (sent : Bool) : Option (List UInt8) × TCPConnection :=
  if c.running then
    match c.queue.waitAndPop 1 with
    | none => (none, c)
    | some (.value data, queue) => (some data, { c with queue, running := !data.isEmpty && sent })
    -- Nobody requests a wakeup.
    | some (.wakeup, queue) => (none, { c with queue })
  else (none, c)

namespace TCPDataDispatcher

inductive Op where
  | write (data : List UInt8)
  | push
  | size
  | accept
  | fail (what : String)
  | process (name : ℕ) (sent : Bool)
deriving DecidableEq

inductive Event where
  | quiet
  | runtimeError (what : String)
  | popped (name : ℕ) (data : List UInt8)
deriving DecidableEq

def preroll (s : TCPDataDispatcher) (data : List UInt8) : List (List UInt8) :=
  if s.buffersToPreroll > 0 then
    let prerollQueue := s.prerollQueue ++ [data]
    if prerollQueue.length > s.buffersToPreroll then prerollQueue.tail else prerollQueue
  else s.prerollQueue

def names (s : TCPDataDispatcher) : List ℕ := s.connections.map TCPConnection.name

def update (s : TCPDataDispatcher) (name : ℕ) (f : TCPConnection → TCPConnection) :
    List TCPConnection :=
  s.connections.map fun c => if c.name = name then f c else c

def stepWrite (s : TCPDataDispatcher) (op : Op) : Event × TCPDataDispatcher :=
  match s.writer, op with
  | .outside, .write data =>
    if s.running then
      (.quiet, { s with prerollQueue := s.preroll data, writer := .pushing data s.names })
    else (.runtimeError s.exceptionData, s)
  | .pushing data (name :: names), .push =>
    (.quiet, { s with connections := s.update name (·.push data), writer := .pushing data names })
  | .pushing _ [], .push => (.quiet, { s with writer := .checking s.names })
  | .checking (name :: names), .size =>
    let connections := s.connections.filter fun c =>
      !(c.name = name ∧ c.queue.size > s.maxQueueSize)
    (.quiet, { s with connections, writer := .checking names })
  | .checking [], .size => (.quiet, { s with writer := .outside })
  | _, _ => (.quiet, s)

def stepAccept (s : TCPDataDispatcher) : Event × TCPDataDispatcher :=
  let prerolled := if s.buffersToPreroll > 0 then s.prerollQueue else []
  let connection := prerolled.foldl TCPConnection.push { name := s.accepted }
  (.quiet, { s with connections := connection :: s.connections, accepted := s.accepted + 1 })

def stepProcess (s : TCPDataDispatcher) (name : ℕ) (sent : Bool) : Event × TCPDataDispatcher :=
  match s.connections.find? (·.name = name) with
  | none => (.quiet, s)
  | some c =>
    ((c.process sent).1.elim .quiet (.popped name),
      { s with connections := s.update name fun c => (c.process sent).2 })

def step (s : TCPDataDispatcher) (op : Op) : Event × TCPDataDispatcher :=
  match op with
  | .write _ | .push | .size => s.stepWrite op
  | .accept => if s.running ∧ s.writer = .outside then s.stepAccept else (.quiet, s)
  | .fail what =>
    if s.running then
      (.quiet, { s with
        exceptionData := "TCPDataDispatcher error: " ++ what
        running := false })
    else (.quiet, s)
  | .process name sent => s.stepProcess name sent

/-- The buffer of a call of `write` that begins and does not throw. -/
def writing (s : TCPDataDispatcher) (op : Op) : List (List UInt8) :=
  match s.writer, op with
  | .outside, .write data => if s.running then [data] else []
  | _, _ => []

/-- The buffers that are written in a run. -/
def writings (s : TCPDataDispatcher) : List Op → List (List UInt8)
  | [] => []
  | op :: ops => s.writing op ++ (s.step op).2.writings ops

/-- The buffer that the thread of a client takes in a step. -/
def Event.popping (client : ℕ) : Event → List (List UInt8)
  | .popped name data => if name = client then [data] else []
  | _ => []

/-- The buffer that the call of `write` in progress has not pushed to a client yet. -/
def pending (s : TCPDataDispatcher) (client : ℕ) : List (List UInt8) :=
  match s.writer with
  | .pushing data names => if client ∈ names then [data] else []
  | _ => []

section Runs

variable (maxQueueSize buffersToPreroll : ℕ)

def after (ops : List Op) : TCPDataDispatcher :=
  Mealy.state step { maxQueueSize, buffersToPreroll } ops

def written (ops : List Op) : List (List UInt8) :=
  writings { maxQueueSize, buffersToPreroll } ops

def popped (client : ℕ) (ops : List Op) : List (List UInt8) :=
  (Mealy.outputs step { maxQueueSize, buffersToPreroll } ops).flatMap (Event.popping client)

end Runs

/-- What every state of a run meets: the clients have different names, given out so far, and a call
of `write` pushes to each client once. -/
structure Named (s : TCPDataDispatcher) : Prop where
  nodup : s.names.Nodup
  lt_accepted : ∀ name ∈ s.names, name < s.accepted
  pushing : ∀ data names, s.writer = .pushing data names → names.Nodup ∧ names ⊆ s.names

section Steps

variable {s : TCPDataDispatcher} {client : ℕ}

@[simp] theorem name_push (c : TCPConnection) (data : List UInt8) : (c.push data).name = c.name :=
  rfl

@[simp] theorem name_process (c : TCPConnection) (sent : Bool) :
    (c.process sent).2.name = c.name := by
  fun_cases TCPConnection.process c sent <;> rfl

theorem foldl_push (c : TCPConnection) (bufs : List (List UInt8)) :
    (bufs.foldl TCPConnection.push c).name = c.name ∧
      (bufs.foldl TCPConnection.push c).queue.theQueue = c.queue.theQueue ++ bufs := by
  induction bufs generalizing c with
  | nil => exact ⟨rfl, (List.append_nil _).symm⟩
  | cons buf bufs ih =>
    obtain ⟨hname, hqueue⟩ := ih (c.push buf)
    refine ⟨hname, hqueue.trans ?_⟩
    rw [TCPConnection.push, ThreadsafeQueue.theQueue_push_zero, List.append_assoc,
      List.singleton_append]

theorem theQueue_process (c : TCPConnection) (sent : Bool) :
    c.queue.theQueue = (c.process sent).1.toList ++ (c.process sent).2.queue.theQueue := by
  fun_cases TCPConnection.process c sent with
  | case1 => rfl
  | case2 _ data queue hpop =>
    rcases ThreadsafeQueue.theQueue_waitAndPop hpop with ⟨_, ⟨⟩, hqueue⟩ | ⟨⟨⟩, _⟩
    exact hqueue
  | case3 _ queue hpop =>
    rcases ThreadsafeQueue.theQueue_waitAndPop hpop with ⟨_, ⟨⟩, _⟩ | ⟨_, hqueue⟩
    exact hqueue.symm
  | case4 => rfl

theorem names_update (name : ℕ) {f : TCPConnection → TCPConnection}
    (hf : ∀ c, (f c).name = c.name) :
    (s.update name f).map TCPConnection.name = s.names := by
  unfold update names
  rw [List.map_map]
  apply List.map_congr_left
  intro c _
  by_cases h : c.name = name <;> simp [h, hf]

theorem stepProcess_eq (s : TCPDataDispatcher) (name : ℕ) (sent : Bool) :
    ∃ connections, (s.stepProcess name sent).2 = { s with connections } ∧
      connections.map TCPConnection.name = s.names := by
  fun_cases stepProcess s name sent with
  | case1 => exact ⟨s.connections, rfl, rfl⟩
  | case2 => exact ⟨_, rfl, names_update name fun c => name_process c sent⟩

theorem names_stepAccept (s : TCPDataDispatcher) :
    s.stepAccept.2.names = s.accepted :: s.names :=
  congrArg (· :: s.names) (foldl_push ..).1

/-- A step is one of a call of `write`, of the accepting thread or of the thread of a client. -/
theorem step_cases (s : TCPDataDispatcher) (op : Op) :
    s.step op = s.stepWrite op ∨
      (op = .accept ∧ s.writer = .outside ∧ s.step op = s.stepAccept) ∨
      (∃ running exceptionData, s.step op = (.quiet, { s with running, exceptionData }) ∧
        s.writing op = []) ∨
      ∃ name sent, op = .process name sent ∧ s.step op = s.stepProcess name sent := by
  cases op with
  | write data => exact Or.inl rfl
  | push => exact Or.inl rfl
  | size => exact Or.inl rfl
  | accept =>
    by_cases hguard : s.running ∧ s.writer = .outside
    · exact Or.inr (Or.inl ⟨rfl, hguard.2, if_pos hguard⟩)
    · exact Or.inr (Or.inr (Or.inl ⟨s.running, s.exceptionData, if_neg hguard, by simp [writing]⟩))
  | fail what =>
    by_cases hrunning : s.running
    · exact Or.inr (Or.inr (Or.inl ⟨false, _, if_pos hrunning, by simp [writing]⟩))
    · exact Or.inr (Or.inr (Or.inl ⟨s.running, s.exceptionData, if_neg hrunning, by
        simp [writing]⟩))
  | process name sent => exact Or.inr (Or.inr (Or.inr ⟨name, sent, rfl, rfl⟩))

@[simp] theorem limits_step (s : TCPDataDispatcher) (op : Op) :
    (s.step op).2.maxQueueSize = s.maxQueueSize ∧
      (s.step op).2.buffersToPreroll = s.buffersToPreroll := by
  rcases s.step_cases op with hstep | ⟨-, -, hstep⟩ | ⟨running, exceptionData, hstep, -⟩ |
    ⟨name, sent, -, hstep⟩ <;> rw [hstep]
  · fun_cases stepWrite s op <;> exact ⟨rfl, rfl⟩
  · exact ⟨rfl, rfl⟩
  · exact ⟨rfl, rfl⟩
  · obtain ⟨connections, heq, -⟩ := s.stepProcess_eq name sent
    rw [heq]
    exact ⟨rfl, rfl⟩

/-- The preroll queue holds the last buffers that were written. -/
theorem preroll_eq {data : List UInt8} {written : List (List UInt8)}
    (h : s.prerollQueue = written.rtake s.buffersToPreroll) :
    s.preroll data = (written ++ [data]).rtake s.buffersToPreroll := by
  unfold preroll
  cases hP : s.buffersToPreroll with
  | zero => simpa [hP] using h
  | succ n =>
    rw [hP] at h
    rw [List.rtake_concat_succ, h]
    rcases Nat.lt_or_ge n written.length with hlong | hshort
    · have hlength : (written.rtake (n + 1)).length = n + 1 := by
        rw [List.rtake, List.length_drop]
        omega
      have htail : (written.rtake (n + 1)).tail = written.rtake n := by
        rw [List.rtake, List.rtake, List.tail_drop]
        congr 1
        omega
      have hne : written.rtake (n + 1) ≠ [] := List.ne_nil_of_length_eq_add_one hlength
      simp [hlength, List.tail_append_of_ne_nil hne, htail]
    · have hall (m : ℕ) (hm : written.length ≤ m) : written.rtake m = written := by
        rw [List.rtake, Nat.sub_eq_zero_of_le hm, List.drop_zero]
      rw [hall n hshort, hall (n + 1) (Nat.le_succ_of_le hshort)]
      simp [Nat.not_lt.mpr hshort]

theorem prerollQueue_step {written : List (List UInt8)} (op : Op)
    (h : s.prerollQueue = written.rtake s.buffersToPreroll) :
    (s.step op).2.prerollQueue =
      (written ++ s.writing op).rtake (s.step op).2.buffersToPreroll := by
  rw [(limits_step s op).2]
  rcases s.step_cases op with hstep | ⟨rfl, -, hstep⟩ | ⟨running, exceptionData, hstep, hwriting⟩ |
    ⟨name, sent, rfl, hstep⟩ <;> rw [hstep]
  · fun_cases stepWrite s op with
    | case1 data houtside hrunning => simpa [writing, houtside, hrunning] using preroll_eq h
    | _ => simp [writing, *]
  · simpa [writing, stepAccept] using h
  · simpa [hwriting] using h
  · obtain ⟨connections, heq, -⟩ := s.stepProcess_eq name sent
    simpa [writing, heq] using h

theorem named_new (maxQueueSize buffersToPreroll : ℕ) :
    Named { maxQueueSize, buffersToPreroll } := by
  constructor
  · exact List.nodup_nil
  · exact nofun
  · exact nofun

theorem Named.of_eq {t : TCPDataDispatcher} (h : Named s) (hnames : t.names = s.names)
    (haccepted : t.accepted = s.accepted)
    (hwriter : ∀ data names, t.writer = .pushing data names → names.Nodup ∧ names ⊆ s.names) :
    Named t := by
  constructor
  · rw [hnames]
    exact h.nodup
  · rw [hnames, haccepted]
    exact h.lt_accepted
  · rw [hnames]
    exact hwriter

theorem named_stepWrite (h : Named s) (op : Op) : Named (s.stepWrite op).2 := by
  fun_cases stepWrite s op with
  | case1 =>
    refine h.of_eq rfl rfl ?_
    rintro data names ⟨⟩
    exact ⟨h.nodup, List.Subset.refl _⟩
  | case3 data name names hwriter =>
    have hpushing := h.pushing _ _ hwriter
    refine h.of_eq (names_update name fun c => name_push c data) rfl ?_
    rintro _ _ ⟨⟩
    exact ⟨hpushing.1.of_cons, List.subset_of_cons_subset hpushing.2⟩
  | case5 name names hwriter =>
    have hsub : ((s.connections.filter fun c =>
        !(c.name = name ∧ c.queue.size > s.maxQueueSize)).map TCPConnection.name).Sublist
          s.names := List.filter_sublist.map _
    constructor
    · exact h.nodup.sublist hsub
    · exact fun name hname => h.lt_accepted name (hsub.subset hname)
    · exact nofun
  | case2 => exact h
  | case4 => exact h.of_eq rfl rfl nofun
  | case6 => exact h.of_eq rfl rfl nofun
  | case7 => exact h

theorem named_step (h : Named s) (op : Op) : Named (s.step op).2 := by
  rcases s.step_cases op with hstep | ⟨-, houtside, hstep⟩ | ⟨running, exceptionData, hstep, -⟩ |
    ⟨name, sent, -, hstep⟩ <;> rw [hstep]
  · exact named_stepWrite h op
  · constructor
    · rw [names_stepAccept]
      exact List.nodup_cons.mpr ⟨fun hmem => lt_irrefl _ (h.lt_accepted _ hmem), h.nodup⟩
    · rw [names_stepAccept]
      intro name hname
      rcases List.mem_cons.mp hname with rfl | hname
      · exact Nat.lt_succ_self _
      · exact Nat.lt_succ_of_lt (h.lt_accepted name hname)
    · intro data names hwriter
      exact nomatch houtside.symm.trans hwriter
  · exact h.of_eq rfl rfl h.pushing
  · obtain ⟨connections, heq, hnames⟩ := s.stepProcess_eq name sent
    rw [heq]
    exact h.of_eq hnames rfl h.pushing

theorem accepted_stepWrite (s : TCPDataDispatcher) (op : Op) :
    (s.stepWrite op).2.accepted = s.accepted := by
  fun_cases stepWrite s op <;> rfl

theorem names_stepWrite (s : TCPDataDispatcher) (op : Op) :
    (s.stepWrite op).2.names ⊆ s.names := by
  fun_cases stepWrite s op with
  | case3 data name => exact (List.Perm.of_eq (names_update name fun c => name_push c data)).subset
  | case5 => exact (List.filter_sublist.map _).subset
  | _ => exact List.Subset.refl _

theorem accepted_le_step (s : TCPDataDispatcher) (op : Op) :
    s.accepted ≤ (s.step op).2.accepted := by
  rcases s.step_cases op with hstep | ⟨-, -, hstep⟩ | ⟨running, exceptionData, hstep, -⟩ |
    ⟨name, sent, -, hstep⟩ <;> rw [hstep]
  · exact (accepted_stepWrite s op).ge
  · exact Nat.le_succ _
  · obtain ⟨connections, heq, -⟩ := s.stepProcess_eq name sent
    rw [heq]

theorem mem_names_of_step (hclient : client < s.accepted) (op : Op)
    (hmem : client ∈ (s.step op).2.names) : client ∈ s.names := by
  rcases s.step_cases op with hstep | ⟨-, -, hstep⟩ | ⟨running, exceptionData, hstep, -⟩ |
    ⟨name, sent, -, hstep⟩ <;> rw [hstep] at hmem
  · exact names_stepWrite s op hmem
  · rw [names_stepAccept] at hmem
    exact (List.mem_cons.mp hmem).resolve_left hclient.ne
  · exact hmem
  · obtain ⟨connections, heq, hnames⟩ := s.stepProcess_eq name sent
    rw [heq] at hmem
    exact hnames ▸ hmem

theorem connection_stepWrite (h : Named s) (op : Op) {c' : TCPConnection}
    (hmem : c' ∈ (s.stepWrite op).2.connections) :
    ∃ c ∈ s.connections, c.name = c'.name ∧
      c.queue.theQueue ++ s.pending c.name ++ s.writing op =
        (s.stepWrite op).1.popping c.name ++
          (c'.queue.theQueue ++ (s.stepWrite op).2.pending c.name) := by
  revert hmem
  fun_cases stepWrite s op with
  | case1 data houtside hrunning =>
    intro hmem
    have hname : c'.name ∈ s.names := List.mem_map_of_mem hmem
    exact ⟨c', hmem, rfl, by simp [pending, writing, Event.popping, houtside, hrunning, hname]⟩
  | case3 data name names hwriter =>
    intro hmem
    obtain ⟨c, hc, rfl⟩ := List.mem_map.mp hmem
    have hnodup := List.nodup_cons.mp (h.pushing _ _ hwriter).1
    refine ⟨c, hc, ?_⟩
    by_cases hname : c.name = name
    · simp [pending, writing, Event.popping, TCPConnection.push, hwriter, hname, hnodup.1]
    · simp [pending, writing, Event.popping, hwriter, hname]
  | case5 =>
    intro hmem
    refine ⟨c', List.mem_of_mem_filter hmem, rfl, ?_⟩
    simp [pending, writing, Event.popping, *]
  | _ => exact fun hmem => ⟨c', hmem, rfl, by simp [pending, writing, Event.popping, *]⟩

theorem popping_elim (taken : Option (List UInt8)) (name : ℕ) :
    (taken.elim Event.quiet (Event.popped name)).popping client =
      if name = client then taken.toList else [] := by
  cases taken with
  | none => simp [Event.popping]
  | some data => rfl

theorem connection_stepProcess (h : Named s) (name : ℕ) (sent : Bool) {c' : TCPConnection}
    (hmem : c' ∈ (s.stepProcess name sent).2.connections) :
    ∃ c ∈ s.connections, c.name = c'.name ∧
      c.queue.theQueue ++ s.pending c.name ++ s.writing (.process name sent) =
        (s.stepProcess name sent).1.popping c.name ++
          (c'.queue.theQueue ++ (s.stepProcess name sent).2.pending c.name) := by
  revert hmem
  fun_cases stepProcess s name sent with
  | case1 => exact fun hmem => ⟨c', hmem, rfl, by simp [writing, Event.popping]⟩
  | case2 taking hfound =>
    intro hmem
    obtain ⟨c, hc, rfl⟩ := List.mem_map.mp hmem
    refine ⟨c, hc, ?_⟩
    rw [popping_elim]
    by_cases hname : c.name = name
    · -- The names are different, so this is the client that takes a buffer.
      have htaking : taking.name = name := by simpa using List.find?_some hfound
      obtain rfl : c = taking := List.inj_on_of_nodup_map h.nodup hc
        (List.mem_of_find?_eq_some hfound) (hname.trans htaking.symm)
      simp [pending, writing, hname, theQueue_process c sent]
    · simp [pending, writing, hname, Ne.symm hname]

/-- The buffers of a client that stays connected are in its queue or on their way into it, and leave
it from the front. -/
theorem connection_step (h : Named s) (op : Op) {c' : TCPConnection}
    (hmem : c' ∈ (s.step op).2.connections) (hclient : c'.name < s.accepted) :
    ∃ c ∈ s.connections, c.name = c'.name ∧
      c.queue.theQueue ++ s.pending c.name ++ s.writing op =
        (s.step op).1.popping c.name ++
          (c'.queue.theQueue ++ (s.step op).2.pending c.name) := by
  rcases s.step_cases op with hstep | ⟨rfl, -, hstep⟩ | ⟨running, exceptionData, hstep, hwriting⟩ |
    ⟨name, sent, rfl, hstep⟩ <;> rw [hstep] at hmem ⊢
  · exact connection_stepWrite h op hmem
  · rcases List.mem_cons.mp hmem with rfl | hmem
    · exact absurd (foldl_push ..).1 hclient.ne
    · exact ⟨c', hmem, rfl, by simp [pending, writing, stepAccept, Event.popping]⟩
  · exact ⟨c', hmem, rfl, by simp [pending, hwriting, Event.popping]⟩
  · exact connection_stepProcess h name sent hmem

theorem stepWrite_drop (hmem : client ∈ s.names) (op : Op)
    (hdropped : client ∉ (s.stepWrite op).2.names) :
    op = .size ∧ (∃ names, s.writer = .checking (client :: names)) ∧
      ∃ c ∈ s.connections, c.name = client ∧ s.maxQueueSize < c.queue.size := by
  revert hdropped
  fun_cases stepWrite s op with
  | case3 data name =>
    have hnames := names_update (s := s) name fun c => name_push c data
    exact fun hdropped => absurd ((List.Perm.of_eq hnames.symm).subset hmem) hdropped
  | case5 name names hwriter =>
    intro hdropped
    obtain ⟨c, hc, rfl⟩ := List.mem_map.mp hmem
    have hfound : c.name = name ∧ c.queue.size > s.maxQueueSize := by
      by_contra hkept
      have hkeep : (!decide (c.name = name ∧ c.queue.size > s.maxQueueSize)) = true := by
        rw [decide_eq_false hkept]
        rfl
      exact hdropped (List.mem_map_of_mem (List.mem_filter.mpr ⟨hc, hkeep⟩))
    exact ⟨rfl, ⟨names, hfound.1 ▸ hwriter⟩, c, hc, rfl, hfound.2⟩
  | _ => exact fun hdropped => absurd hmem hdropped

/-- Only the size check of `write` drops a client, when its queue is too long. -/
theorem step_drop (hmem : client ∈ s.names) (op : Op) (hdropped : client ∉ (s.step op).2.names) :
    op = .size ∧ (∃ names, s.writer = .checking (client :: names)) ∧
      ∃ c ∈ s.connections, c.name = client ∧ s.maxQueueSize < c.queue.size := by
  rcases s.step_cases op with hstep | ⟨-, -, hstep⟩ | ⟨running, exceptionData, hstep, -⟩ |
    ⟨name, sent, -, hstep⟩ <;> rw [hstep] at hdropped
  · exact stepWrite_drop hmem op hdropped
  · rw [names_stepAccept] at hdropped
    exact absurd (List.mem_cons_of_mem _ hmem) hdropped
  · exact absurd hmem hdropped
  · obtain ⟨connections, heq, hnames⟩ := s.stepProcess_eq name sent
    rw [heq] at hdropped
    exact absurd ((List.Perm.of_eq hnames.symm).subset hmem) hdropped

theorem popping_stepProcess (hclient : client ∉ s.names) (name : ℕ) (sent : Bool) :
    (s.stepProcess name sent).1.popping client = [] := by
  fun_cases stepProcess s name sent with
  | case1 => rfl
  | case2 c hfound =>
    have hname : c.name = name := by simpa using List.find?_some hfound
    have hmem : name ∈ s.names := hname ▸ List.mem_map_of_mem (List.mem_of_find?_eq_some hfound)
    rw [popping_elim, if_neg (ne_of_mem_of_not_mem hmem hclient)]

theorem popping_of_not_mem (hclient : client ∉ s.names) (op : Op) :
    (s.step op).1.popping client = [] := by
  rcases s.step_cases op with hstep | ⟨-, -, hstep⟩ | ⟨running, exceptionData, hstep, -⟩ |
    ⟨name, sent, -, hstep⟩ <;> rw [hstep]
  · fun_cases stepWrite s op <;> rfl
  · rfl
  · rfl
  · exact popping_stepProcess hclient name sent

theorem step_new (op : Op) (hclient : client ∉ s.names) (hmem : client ∈ (s.step op).2.names) :
    op = .accept ∧ s.writer = .outside ∧ s.step .accept = s.stepAccept ∧ client = s.accepted := by
  rcases s.step_cases op with hstep | ⟨rfl, houtside, hstep⟩ | ⟨running, exceptionData, hstep, -⟩ |
    ⟨name, sent, -, hstep⟩ <;> rw [hstep] at hmem
  · exact absurd (names_stepWrite s op hmem) hclient
  · rw [names_stepAccept] at hmem
    exact ⟨rfl, houtside, hstep, (List.mem_cons.mp hmem).resolve_right hclient⟩
  · exact absurd hmem hclient
  · obtain ⟨connections, heq, hnames⟩ := s.stepProcess_eq name sent
    rw [heq] at hmem
    exact absurd (hnames ▸ hmem) hclient

theorem returns_of_checking (names : List ℕ) (hwriter : s.writer = .checking names) :
    ∃ rest : List Op, (∀ op ∈ rest, op = .push ∨ op = .size) ∧
      (Mealy.state step s rest).writer = .outside := by
  induction names generalizing s with
  | nil => exact ⟨[.size], by simp, by simp [step, stepWrite, hwriter]⟩
  | cons name names ih =>
    have hnext : (s.step .size).2.writer = .checking names := by simp [step, stepWrite, hwriter]
    obtain ⟨rest, hrest, houtside⟩ := ih hnext
    exact ⟨.size :: rest, by simpa using hrest, houtside⟩

theorem returns_of_pushing {data : List UInt8} (names : List ℕ)
    (hwriter : s.writer = .pushing data names) :
    ∃ rest : List Op, (∀ op ∈ rest, op = .push ∨ op = .size) ∧
      (Mealy.state step s rest).writer = .outside := by
  induction names generalizing s with
  | nil =>
    have hnext : (s.step .push).2.writer = .checking s.names := by simp [step, stepWrite, hwriter]
    obtain ⟨rest, hrest, houtside⟩ := returns_of_checking _ hnext
    exact ⟨.push :: rest, by simpa using hrest, houtside⟩
  | cons name names ih =>
    have hnext : (s.step .push).2.writer = .pushing data names := by
      simp [step, stepWrite, hwriter]
    obtain ⟨rest, hrest, houtside⟩ := ih hnext
    exact ⟨.push :: rest, by simpa using hrest, houtside⟩

end Steps

section Runs

variable {s : TCPDataDispatcher} {client : ℕ}

theorem named_run (h : Named s) (ops : List Op) : Named (Mealy.state step s ops) :=
  Mealy.invariant ops h fun _ op h => named_step h op

theorem accepted_le_run (s : TCPDataDispatcher) (ops : List Op) :
    s.accepted ≤ (Mealy.state step s ops).accepted :=
  Mealy.invariant (I := fun t => s.accepted ≤ t.accepted) ops le_rfl fun t op h =>
    h.trans (accepted_le_step t op)

theorem writings_append (s : TCPDataDispatcher) (ops ops' : List Op) :
    s.writings (ops ++ ops') = s.writings ops ++ (Mealy.state step s ops).writings ops' := by
  induction ops generalizing s with
  | nil => rfl
  | cons op ops ih => simp [writings, ih]

theorem prerollQueue_run {written : List (List UInt8)}
    (h : s.prerollQueue = written.rtake s.buffersToPreroll) (ops : List Op) :
    (Mealy.state step s ops).prerollQueue =
      (written ++ s.writings ops).rtake s.buffersToPreroll := by
  induction ops generalizing s written with
  | nil => simpa [writings] using h
  | cons op ops ih =>
    have hstep := ih (prerollQueue_step op h)
    rw [(limits_step s op).2, List.append_assoc] at hstep
    exact hstep

theorem mem_names_of_run (hclient : client < s.accepted) (ops : List Op)
    (hmem : client ∈ (Mealy.state step s ops).names) : client ∈ s.names := by
  induction ops generalizing s with
  | nil => exact hmem
  | cons op ops ih =>
    apply mem_names_of_step hclient op
    exact ih (hclient.trans_le (accepted_le_step s op)) hmem

theorem connection_run (h : Named s) (ops : List Op) {c' : TCPConnection}
    (hmem : c' ∈ (Mealy.state step s ops).connections) (hclient : c'.name < s.accepted) :
    ∃ c ∈ s.connections, c.name = c'.name ∧
      c.queue.theQueue ++ s.pending c.name ++ s.writings ops =
        (Mealy.outputs step s ops).flatMap (Event.popping c.name) ++
          (c'.queue.theQueue ++ (Mealy.state step s ops).pending c.name) := by
  induction ops generalizing s with
  | nil => exact ⟨c', hmem, rfl, by simp [writings]⟩
  | cons op ops ih =>
    have hlater := hclient.trans_le (accepted_le_step s op)
    obtain ⟨c₁, hc₁, hname₁, hrun⟩ := ih (named_step h op) hmem hlater
    obtain ⟨c, hc, hname, hstep⟩ := connection_step h op hc₁ (hname₁ ▸ hclient)
    refine ⟨c, hc, hname.trans hname₁, ?_⟩
    rw [← hname] at hrun
    rw [writings, ← List.append_assoc, hstep, List.append_assoc, hrun, ← List.append_assoc]
    rfl

theorem popping_run_of_accepted_le (h : Named s) (ops : List Op)
    (haccepted : (Mealy.state step s ops).accepted ≤ client) :
    (Mealy.outputs step s ops).flatMap (Event.popping client) = [] := by
  induction ops generalizing s with
  | nil => rfl
  | cons op ops ih =>
    have hlater : s.accepted ≤ client := (accepted_le_run s (op :: ops)).trans haccepted
    have hclient : client ∉ s.names := fun hmem => (h.lt_accepted client hmem).not_ge hlater
    rw [Mealy.outputs_cons, List.flatMap_cons, popping_of_not_mem hclient,
      ih (named_step h op) haccepted, List.nil_append]

end Runs

section Clients

variable (maxQueueSize buffersToPreroll : ℕ)

theorem named_after (ops : List Op) : Named (after maxQueueSize buffersToPreroll ops) :=
  named_run (named_new ..) ops

/-- While a client is connected, what its thread took, its queue and what the call of `write` in
progress has still to push are the preroll, which is the last of the buffers written before the
client was accepted, and all buffers written since. -/
def Contiguous : Prop :=
  ∀ before op rest, ∀ c ∈ (after maxQueueSize buffersToPreroll (before ++ op :: rest)).connections,
    c.name ∉ (after maxQueueSize buffersToPreroll before).names →
    c.name ∈ (after maxQueueSize buffersToPreroll (before ++ [op])).names →
    popped maxQueueSize buffersToPreroll c.name (before ++ op :: rest) ++ c.queue.theQueue ++
        (after maxQueueSize buffersToPreroll (before ++ op :: rest)).pending c.name =
      (written maxQueueSize buffersToPreroll before).rtake buffersToPreroll ++
        (written maxQueueSize buffersToPreroll (before ++ op :: rest)).drop
          (written maxQueueSize buffersToPreroll before).length

/-- A call of `write` in progress can return, and then nothing is left to push. -/
def WriteReturns : Prop :=
  ∀ before, ∃ rest : List Op, (∀ op ∈ rest, op = .push ∨ op = .size) ∧
    ∀ client, (after maxQueueSize buffersToPreroll (before ++ rest)).writer = .outside ∧
      (after maxQueueSize buffersToPreroll (before ++ rest)).pending client = []

/-- A client is dropped only by the size check of a call of `write`, which finds more buffers in its
queue than the maximum. -/
def DroppedByWrite : Prop :=
  ∀ before op client, client ∈ (after maxQueueSize buffersToPreroll before).names →
    client ∉ (after maxQueueSize buffersToPreroll (before ++ [op])).names →
    op = .size ∧
      (∃ names, (after maxQueueSize buffersToPreroll before).writer = .checking (client :: names)) ∧
      ∃ c ∈ (after maxQueueSize buffersToPreroll before).connections,
        c.name = client ∧ maxQueueSize < c.queue.size

/-- A client that was dropped is not connected again. -/
def DroppedForever : Prop :=
  ∀ before rest client, client < (after maxQueueSize buffersToPreroll before).accepted →
    client ∉ (after maxQueueSize buffersToPreroll before).names →
    client ∉ (after maxQueueSize buffersToPreroll (before ++ rest)).names

section

variable {maxQueueSize buffersToPreroll}

theorem after_append (before rest : List Op) :
    after maxQueueSize buffersToPreroll (before ++ rest) =
      Mealy.state step (after maxQueueSize buffersToPreroll before) rest :=
  Mealy.state_append ..

theorem written_append (before rest : List Op) :
    written maxQueueSize buffersToPreroll (before ++ rest) =
      written maxQueueSize buffersToPreroll before ++
        (after maxQueueSize buffersToPreroll before).writings rest :=
  writings_append ..

theorem popped_append (client : ℕ) (before rest : List Op) :
    popped maxQueueSize buffersToPreroll client (before ++ rest) =
      popped maxQueueSize buffersToPreroll client before ++
        (Mealy.outputs step (after maxQueueSize buffersToPreroll before) rest).flatMap
          (Event.popping client) := by
  unfold popped after
  rw [Mealy.outputs_append, List.flatMap_append]

theorem prerolled_eq (before : List Op) :
    (if (after maxQueueSize buffersToPreroll before).buffersToPreroll > 0 then
        (after maxQueueSize buffersToPreroll before).prerollQueue else []) =
      (written maxQueueSize buffersToPreroll before).rtake buffersToPreroll := by
  have hpreroll := prerollQueue_run (s := { maxQueueSize, buffersToPreroll })
    (List.rtake_nil ..).symm before
  have hlimit : (after maxQueueSize buffersToPreroll before).buffersToPreroll = buffersToPreroll :=
    Mealy.invariant (I := fun s => s.buffersToPreroll = buffersToPreroll) before rfl
      fun s op h => (limits_step s op).2.trans h
  rw [hlimit]
  split
  · exact hpreroll
  · rename_i hzero
    rw [Nat.eq_zero_of_not_pos hzero, List.rtake_zero]

end

theorem contiguous : Contiguous maxQueueSize buffersToPreroll := by
  intro before op rest c hmem hclient hconnected
  have hnamed := named_after maxQueueSize buffersToPreroll before
  rw [after_append] at hconnected
  obtain ⟨rfl, houtside, hstep, hname⟩ := step_new op hclient hconnected
  have hbefore : popped maxQueueSize buffersToPreroll c.name before = [] :=
    popping_run_of_accepted_le (named_new ..) before hname.ge
  have hlater : c.name < (after maxQueueSize buffersToPreroll before).stepAccept.2.accepted := by
    rw [hname]
    exact Nat.lt_succ_self _
  rw [after_append, Mealy.state_cons, hstep] at hmem
  obtain ⟨c₀, hc₀, hname₀, hrun⟩ := connection_run (hstep ▸ named_step hnamed .accept) rest hmem
    hlater
  -- The client that was just accepted is the only one of its name.
  have hqueue : c₀.queue.theQueue =
      (written maxQueueSize buffersToPreroll before).rtake buffersToPreroll := by
    rcases List.mem_cons.mp hc₀ with rfl | hold
    · rw [(foldl_push ..).2, prerolled_eq]
      rfl
    · exact absurd (List.mem_map_of_mem hold) (hname₀ ▸ hclient)
  have hpending :
      (after maxQueueSize buffersToPreroll before).stepAccept.2.pending c.name = [] := by
    simp [pending, stepAccept, houtside]
  rw [hname₀, hpending, hqueue, List.append_nil] at hrun
  rw [popped_append, written_append, after_append, hbefore, List.drop_left, Mealy.outputs_cons,
    Mealy.state_cons, writings, List.flatMap_cons, hstep]
  simpa [writing, houtside, stepAccept, Event.popping] using hrun.symm

theorem writeReturns : WriteReturns maxQueueSize buffersToPreroll := by
  intro before
  have hrest : ∃ rest : List Op, (∀ op ∈ rest, op = .push ∨ op = .size) ∧
      (Mealy.state step (after maxQueueSize buffersToPreroll before) rest).writer = .outside := by
    cases hwriter : (after maxQueueSize buffersToPreroll before).writer with
    | outside => exact ⟨[], by simp, hwriter⟩
    | pushing data names => exact returns_of_pushing names hwriter
    | checking names => exact returns_of_checking names hwriter
  obtain ⟨rest, hops, houtside⟩ := hrest
  refine ⟨rest, hops, fun client => ?_⟩
  rw [after_append]
  exact ⟨houtside, by rw [pending, houtside]⟩

theorem droppedByWrite : DroppedByWrite maxQueueSize buffersToPreroll := by
  intro before op client hmem hdropped
  rw [after_append] at hdropped
  have hlimit : (after maxQueueSize buffersToPreroll before).maxQueueSize = maxQueueSize :=
    Mealy.invariant (I := fun s => s.maxQueueSize = maxQueueSize) before rfl
      fun s op h => (limits_step s op).1.trans h
  simpa only [hlimit] using step_drop hmem op hdropped

theorem droppedForever : DroppedForever maxQueueSize buffersToPreroll := by
  intro before rest client haccepted hclient
  rw [after_append]
  exact fun hmem => hclient (mem_names_of_run haccepted rest hmem)

/-- In every run, what goes through the queue of a client is a contiguous run of what is written,
from the preroll on until the client is dropped, and only a call of `write` drops clients. -/
theorem dispatches :
    Contiguous maxQueueSize buffersToPreroll ∧ WriteReturns maxQueueSize buffersToPreroll ∧
      DroppedByWrite maxQueueSize buffersToPreroll ∧ DroppedForever maxQueueSize buffersToPreroll :=
  ⟨contiguous _ _, writeReturns _ _, droppedByWrite _ _, droppedForever _ _⟩

def writeSteps (data : List UInt8) : List Op := [.write data, .push, .push, .size, .size]

/-- With a preroll of one, a client is accepted after two buffers. Its thread takes the second of
them, and a third is written. -/
def prerolledClient : List Op :=
  writeSteps [1] ++ writeSteps [2] ++ .accept :: .process 0 true :: writeSteps [3]

theorem dispatches_preroll :
    (after 1 1 prerolledClient).names = [0] ∧ popped 1 1 0 prerolledClient = [[2]] ∧
      (∀ c ∈ (after 1 1 prerolledClient).connections,
        popped 1 1 c.name prerolledClient ++ c.queue.theQueue = [[2], [3]]) ∧
      ∀ rest, 0 ∉ (after 1 1 (prerolledClient ++ writeSteps [4] ++ rest)).names := by
  have hnames : (after 1 1 prerolledClient).names = [0] := by decide
  refine ⟨hnames, by decide, fun c hc => ?_, fun rest => ?_⟩
  · have hname : c.name ∈ (after 1 1 prerolledClient).names := List.mem_map_of_mem hc
    have hbefore : (after 1 1 (writeSteps [1] ++ writeSteps [2])).names = [] := by decide
    have haccepted : (after 1 1 (writeSteps [1] ++ writeSteps [2] ++ [.accept])).names = [0] := by
      decide
    have houtside : (after 1 1 prerolledClient).writer = .outside := by decide
    have hcontiguous := (dispatches 1 1).1 (writeSteps [1] ++ writeSteps [2]) .accept
      (.process 0 true :: writeSteps [3]) c hc (by simp [hbefore]) (by rwa [haccepted, ← hnames])
    have hpending : (after 1 1 prerolledClient).pending c.name = [] := by rw [pending, houtside]
    rw [← prerolledClient, hpending, List.append_nil] at hcontiguous
    exact hcontiguous.trans (by decide)
  · exact (dispatches 1 1).2.2.2 (prerolledClient ++ writeSteps [4]) rest 0 (by decide) (by decide)

end Clients

end TCPDataDispatcher

end SourceCompanion.Socket
