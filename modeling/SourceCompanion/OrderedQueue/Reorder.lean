import Mathlib.Data.Finset.Card
import Mathlib.Order.Interval.Finset.Nat
import SourceCompanion.OrderedQueue.Order

/-! # Reordering without loss

Frames that arrive displaced by less than the capacity are popped consecutively. The
stock is a sliding window: it holds exactly the pushed frames from the next number on,
and since they span less than one cycle their indices do not collide.
-/

namespace SourceCompanion.OrderedQueue

variable {δ : Type*}

/-- The numbers of the frames pushed by a word of calls, in order. -/
def numbers (ops : List (Op δ)) : List ℕ :=
  ops.filterMap fun
    | .push n _ => some n
    | .pop => none

/-- The index and data of the frames that the pops of a run return. -/
def handedOut (q : OrderedQueue δ) (ops : List (Op δ)) : List (ℤ × δ) :=
  (Mealy.outputs untaggedStep q ops).reduceOption

/-- A frame arrives after the calls `pre`: for the first time, with its own data, displaced
by less than `D`, and not at a full stock. The first frame to arrive is `n₀`. -/
structure Arrival (q : OrderedQueue δ) (n₀ D : ℕ) (frame : ℕ → δ) (pre : List (Op δ))
    (n : ℕ) (d : δ) : Prop where
  data : d = frame n
  once : n ∉ numbers pre
  first : numbers pre = [] → n = n₀
  from_first : n₀ ≤ n
  displaced : ∀ k, n₀ ≤ k → k + D ≤ n → k ∈ numbers pre
  room : (Mealy.state untaggedStep q pre).size < (Mealy.state untaggedStep q pre).capacity

def Arrives (q : OrderedQueue δ) (n₀ D : ℕ) (frame : ℕ → δ) (ops : List (Op δ)) : Prop :=
  ∀ pre n d post, ops = pre ++ .push n d :: post → Arrival q n₀ D frame pre n d

namespace Reorder

variable {q : OrderedQueue δ} {n₀ D j : ℕ} {frame : ℕ → δ} {P : List ℕ}

@[simp] theorem numbers_append (v w : List (Op δ)) :
    numbers (v ++ w) = numbers v ++ numbers w := by
  simp [numbers]

@[simp] theorem numbers_push (n : ℕ) (d : δ) : numbers [.push n d] = [n] := rfl

@[simp] theorem numbers_pop : numbers [(.pop : Op δ)] = [] := rfl

theorem handedOut_push (ops : List (Op δ)) (n : ℕ) (d : δ) :
    handedOut q (ops ++ [.push n d]) = handedOut q ops := by
  simp [handedOut, untaggedStep, List.reduceOption_append]

theorem handedOut_pop (ops : List (Op δ)) :
    handedOut q (ops ++ [.pop]) =
      handedOut q ops ++ (Mealy.state untaggedStep q ops).pop.1.toList := by
  simp only [handedOut, Mealy.outputs_append, List.reduceOption_append, Mealy.outputs_cons,
    Mealy.outputs_nil, untaggedStep]
  cases (Mealy.state untaggedStep q ops).pop.1 <;> simp

theorem Arrives.of_append {v w : List (Op δ)} (h : Arrives q n₀ D frame (v ++ w)) :
    Arrives q n₀ D frame v :=
  fun pre n d post he => h pre n d (post ++ w) (by simp [he])

theorem arrives_nil : Arrives q n₀ D frame [] := by
  intro pre n d post he
  simp at he

theorem Arrives.push {ops : List (Op δ)} {n : ℕ} {d : δ} (h : Arrives q n₀ D frame ops)
    (hn : Arrival q n₀ D frame ops n d) : Arrives q n₀ D frame (ops ++ [.push n d]) := by
  intro pre m e post he
  rcases List.eq_nil_or_concat post with rfl | ⟨post', op, rfl⟩
  · obtain ⟨rfl, hop⟩ := List.append_inj' he rfl
    obtain ⟨rfl, rfl⟩ : n = m ∧ d = e := by simpa using hop
    exact hn
  · have happ : ops ++ [.push n d] = (pre ++ .push m e :: post') ++ [op] := by simpa using he
    exact h pre m e post' (List.append_inj' happ rfl).1

theorem Arrives.pop {ops : List (Op δ)} (h : Arrives q n₀ D frame ops) :
    Arrives q n₀ D frame (ops ++ [.pop]) := by
  intro pre m e post he
  rcases List.eq_nil_or_concat post with rfl | ⟨post', op, rfl⟩
  · have hop := (List.append_inj' he rfl).2
    simp at hop
  · have happ : ops ++ [.pop] = (pre ++ .push m e :: post') ++ [op] := by simpa using he
    exact h pre m e post' (List.append_inj' happ rfl).1

/-- The frames pushed and not popped yet, when `j` frames have been popped. -/
def waiting (n₀ j : ℕ) (P : List ℕ) : Finset ℕ := P.toFinset.filter (n₀ + j ≤ ·)

theorem mem_waiting {n : ℕ} : n ∈ waiting n₀ j P ↔ n ∈ P ∧ n₀ + j ≤ n := by
  simp [waiting]

theorem mem_waiting_push {m n : ℕ} (hm : n₀ + j ≤ m) :
    n ∈ waiting n₀ j (P ++ [m]) ↔ n ∈ waiting n₀ j P ∨ n = m := by
  simp only [mem_waiting, List.mem_append, List.mem_singleton]
  constructor
  · rintro ⟨hn | rfl, hl⟩
    · exact Or.inl ⟨hn, hl⟩
    · exact Or.inr rfl
  · rintro (⟨hn, hl⟩ | rfl)
    · exact ⟨Or.inl hn, hl⟩
    · exact ⟨Or.inr rfl, hm⟩

theorem mem_waiting_succ {n : ℕ} :
    n ∈ waiting n₀ (j + 1) P ↔ n ∈ waiting n₀ j P ∧ n ≠ n₀ + j := by
  simp only [mem_waiting]
  constructor
  · rintro ⟨hn, hl⟩
    exact ⟨⟨hn, by omega⟩, by omega⟩
  · rintro ⟨⟨hn, hl⟩, hne⟩
    exact ⟨hn, by omega⟩

/-- The sliding window after the pushes `P` and `j` pops that returned a frame. -/
structure Window (q : OrderedQueue δ) (n₀ D : ℕ) (frame : ℕ → δ) (P : List ℕ) (j : ℕ) :
    Prop where
  fresh : P = [] → j = 0 ∧ q.lastIndexPop = -1
  last : P ≠ [] → q.lastIndexPop = ((n₀ : ℤ) + j - 1) % q.maxIndex
  popped : ∀ n, n₀ ≤ n → n < n₀ + j → n ∈ P
  from_first : ∀ n ∈ P, n₀ ≤ n
  displaced : ∀ m ∈ P, ∀ n, n₀ ≤ n → n + D ≤ m → n ∈ P
  span : ∀ n ∈ waiting n₀ j P, (n : ℤ) < n₀ + j + q.maxIndex
  stock : ∀ k d, q.stock.lookup k = some d ↔
    ∃ n ∈ waiting n₀ j P, k = (n : ℤ) % q.maxIndex ∧ d = frame n

theorem window_init {M : ℤ} (c : ℕ) (hM : 0 < M) :
    Window (.empty M c hM) n₀ D frame [] 0 where
  fresh _ := ⟨rfl, rfl⟩
  last h := (h rfl).elim
  popped n h₁ h₂ := by omega
  from_first n hn := by simp at hn
  displaced m hm := by simp at hm
  span n hn := by simp [waiting] at hn
  stock k d := by simp [waiting]

theorem Window.index_inj (h : Window q n₀ D frame P j) {n m : ℕ} (hn : n ∈ waiting n₀ j P)
    (hm : m ∈ waiting n₀ j P) (he : (n : ℤ) % q.maxIndex = (m : ℤ) % q.maxIndex) : n = m := by
  have hn' := (mem_waiting.mp hn).2
  have hm' := (mem_waiting.mp hm).2
  have := Cyclic.eq_of_emod_eq he (a := (n₀ : ℤ) + j) ⟨by omega, h.span n hn⟩
    ⟨by omega, h.span m hm⟩
  omega

theorem Window.mem_stock (h : Window q n₀ D frame P j) {k : ℤ} :
    k ∈ q.stock ↔ ∃ n ∈ waiting n₀ j P, k = (n : ℤ) % q.maxIndex := by
  rw [← AList.lookup_isSome, Option.isSome_iff_exists]
  constructor
  · rintro ⟨d, hd⟩
    obtain ⟨n, hn, hk, -⟩ := (h.stock k d).mp hd
    exact ⟨n, hn, hk⟩
  · rintro ⟨n, hn, hk⟩
    exact ⟨frame n, (h.stock k _).mpr ⟨n, hn, hk, rfl⟩⟩

theorem Window.size_eq (h : Window q n₀ D frame P j) : q.size = (waiting n₀ j P).card := by
  have hk : q.stock.keys.toFinset = (waiting n₀ j P).image fun n : ℕ => (n : ℤ) % q.maxIndex := by
    ext k
    rw [List.mem_toFinset, ← AList.mem_keys, h.mem_stock, Finset.mem_image]
    simp only [eq_comm]
  calc q.size = q.stock.keys.toFinset.card := (List.toFinset_card_of_nodup q.stock.keys_nodup).symm
    _ = (waiting n₀ j P).card := by
      rw [hk, Finset.card_image_of_injOn fun n hn m hm he => h.index_inj hn hm he]

theorem Window.nextIndex (h : Window q n₀ D frame P j) (hP : P ≠ []) :
    q.nextIndex = ((n₀ + j : ℕ) : ℤ) % q.maxIndex := by
  rw [nextIndex_eq, h.last hP, Int.emod_add_emod]
  simp

theorem Window.span_push (h : Window q n₀ D frame P j) (hc : 2 * (q.capacity : ℤ) ≤ q.maxIndex)
    (hD : D ≤ q.capacity) (hroom : q.size < q.capacity) {m : ℕ}
    (hm : ∀ n, n₀ ≤ n → n + D ≤ m → n ∈ P) : (m : ℤ) < n₀ + j + q.maxIndex := by
  by_contra hge
  -- All frames up to `m - D` have been pushed, and those not popped are in the stock.
  have hsub : Finset.Ico (n₀ + j) (m - D + 1) ⊆ waiting n₀ j P := by
    intro n hn
    obtain ⟨hl, hu⟩ := Finset.mem_Ico.mp hn
    exact mem_waiting.mpr ⟨hm n (by omega) (by omega), hl⟩
  have hcard := Finset.card_le_card hsub
  rw [Nat.card_Ico, ← h.size_eq] at hcard
  omega

theorem index_mod (q : OrderedQueue δ) (m : ℕ) :
    ((m % q.maxIndex.toNat : ℕ) : ℤ) = (m : ℤ) % q.maxIndex := by
  have hM := q.maxIndex_pos
  rw [Int.natCast_mod, Int.toNat_of_nonneg (by omega)]

theorem Window.last_push (h : Window q n₀ D frame P j) {m : ℕ} (hfirst : P = [] → m = n₀) (d : δ) :
    (q.push (m % q.maxIndex.toNat) d).lastIndexPop = ((n₀ : ℤ) + j - 1) % q.maxIndex := by
  have hM := q.maxIndex_pos
  rw [lastIndexPop_push, index_mod]
  by_cases hP : P = []
  · obtain ⟨rfl, hl⟩ := h.fresh hP
    rw [if_pos hl, hfirst hP]
    simp [Int.sub_emod]
  · have hne : q.lastIndexPop ≠ -1 := by
      have := Int.emod_nonneg ((n₀ : ℤ) + j - 1) hM.ne'
      rw [h.last hP]
      omega
    rw [if_neg hne, h.last hP]

theorem Window.stock_push (h : Window q n₀ D frame P j) (hroom : q.size < q.capacity) {m : ℕ}
    (hnext : n₀ + j ≤ m) (hspan : (m : ℤ) < n₀ + j + q.maxIndex) (honce : m ∉ P) (k : ℤ) (d : δ) :
    (q.push (m % q.maxIndex.toNat) (frame m)).stock.lookup k = some d ↔
      ∃ n ∈ waiting n₀ j (P ++ [m]), k = (n : ℤ) % q.maxIndex ∧ d = frame n := by
  have hkey : q.key (m % q.maxIndex.toNat) = (m : ℤ) % q.maxIndex := by
    rw [key_eq, index_mod, Int.emod_emod_of_dvd _ dvd_rfl]
  have hfree : ∀ n ∈ waiting n₀ j P, (n : ℤ) % q.maxIndex ≠ (m : ℤ) % q.maxIndex := by
    intro n hn he
    have hn' := (mem_waiting.mp hn).2
    have := Cyclic.eq_of_emod_eq he (a := (n₀ : ℤ) + j) ⟨by omega, h.span n hn⟩
      ⟨by omega, hspan⟩
    obtain rfl : n = m := by omega
    exact honce (mem_waiting.mp hn).1
  rw [stock_push_of_lt hroom, hkey]
  by_cases hk : k = (m : ℤ) % q.maxIndex
  · subst hk
    rw [AList.lookup_insert, Option.some.injEq]
    constructor
    · rintro rfl
      exact ⟨m, (mem_waiting_push hnext).mpr (Or.inr rfl), rfl, rfl⟩
    · rintro ⟨n, hn, hk, rfl⟩
      rcases (mem_waiting_push hnext).mp hn with hn | rfl
      · exact absurd hk.symm (hfree n hn)
      · rfl
  · rw [AList.lookup_insert_ne hk, h.stock]
    constructor
    · rintro ⟨n, hn, hkn, hd⟩
      exact ⟨n, (mem_waiting_push hnext).mpr (Or.inl hn), hkn, hd⟩
    · rintro ⟨n, hn, hkn, hd⟩
      rcases (mem_waiting_push hnext).mp hn with hn | rfl
      · exact ⟨n, hn, hkn, hd⟩
      · exact absurd hkn hk

theorem Window.push (h : Window q n₀ D frame P j) (hc : 2 * (q.capacity : ℤ) ≤ q.maxIndex)
    (hD : D ≤ q.capacity) (hroom : q.size < q.capacity) {m : ℕ} (hfirst : P = [] → m = n₀)
    (hge : n₀ ≤ m) (honce : m ∉ P) (hm : ∀ n, n₀ ≤ n → n + D ≤ m → n ∈ P) :
    Window (q.push (m % q.maxIndex.toNat) (frame m)) n₀ D frame (P ++ [m]) j := by
  have hspan := h.span_push hc hD hroom hm
  have hnext : n₀ + j ≤ m := by
    by_contra hlt
    exact honce (h.popped m hge (by omega))
  constructor
  · simp
  · intro _
    rw [maxIndex_push]
    exact h.last_push hfirst (frame m)
  · exact fun n h₁ h₂ => List.mem_append_left _ (h.popped n h₁ h₂)
  · intro n hn
    rcases List.mem_append.mp hn with hn | hn
    · exact h.from_first n hn
    · obtain rfl := List.mem_singleton.mp hn
      exact hge
  · intro n hn i hi hin
    apply List.mem_append_left
    rcases List.mem_append.mp hn with hn | hn
    · exact h.displaced n hn i hi hin
    · obtain rfl := List.mem_singleton.mp hn
      exact hm i hi hin
  · intro n hn
    rw [maxIndex_push]
    rcases (mem_waiting_push hnext).mp hn with hn | rfl
    · exact h.span n hn
    · exact hspan
  · rw [maxIndex_push]
    exact h.stock_push hroom hnext hspan honce

theorem Window.size_lt (h : Window q n₀ D frame P j) (hn : n₀ + j ∉ P) (hs : 0 < q.size) :
    q.size < D := by
  have hsub : waiting n₀ j P ⊆ Finset.Ico (n₀ + j + 1) (n₀ + j + D) := by
    intro m hm
    obtain ⟨hmP, hml⟩ := mem_waiting.mp hm
    have hne : m ≠ n₀ + j := fun he => hn (he ▸ hmP)
    have hlt : ¬ n₀ + j + D ≤ m := fun hge => hn (h.displaced m hmP _ (by omega) hge)
    exact Finset.mem_Ico.mpr ⟨by omega, by omega⟩
  have hcard := Finset.card_le_card hsub
  rw [Nat.card_Ico, ← h.size_eq] at hcard
  omega

/-- A pop of the next frame moves the window on. -/
theorem Window.taken (h : Window q n₀ D frame P j) (hn : n₀ + j ∈ P) {q' : OrderedQueue δ} {d : δ}
    (hf : PopsFrame q q' (((n₀ + j : ℕ) : ℤ) % q.maxIndex) d) :
    Window q' n₀ D frame P (j + 1) := by
  have hP : P ≠ [] := List.ne_nil_of_mem hn
  have hw : n₀ + j ∈ waiting n₀ j P := mem_waiting.mpr ⟨hn, le_rfl⟩
  refine ⟨fun he => (hP he).elim, fun _ => ?_, fun m h₁ h₂ => ?_, h.from_first, h.displaced,
    fun m hm => ?_, fun i e => ?_⟩
  · rw [hf.lastIndexPop, hf.maxIndex]
    push_cast
    congr 1
    omega
  · rcases Nat.lt_or_ge m (n₀ + j) with hlt | hge
    · exact h.popped m h₁ hlt
    · obtain rfl : m = n₀ + j := by omega
      exact hn
  · have := h.span m (mem_waiting_succ.mp hm).1
    rw [hf.maxIndex]
    push_cast
    omega
  · rw [hf.stock, hf.maxIndex]
    by_cases hik : i = ((n₀ + j : ℕ) : ℤ) % q.maxIndex
    · subst hik
      rw [AList.lookup_erase]
      constructor
      · rintro ⟨⟩
      · rintro ⟨m, hm, him, -⟩
        obtain ⟨hmw, hne⟩ := mem_waiting_succ.mp hm
        exact (hne (h.index_inj hmw hw him.symm)).elim
    · rw [AList.lookup_erase_ne hik, h.stock]
      constructor
      · rintro ⟨m, hm, him, he⟩
        exact ⟨m, mem_waiting_succ.mpr ⟨hm, fun hmn => hik (by rw [him, hmn])⟩, him, he⟩
      · rintro ⟨m, hm, him, he⟩
        exact ⟨m, (mem_waiting_succ.mp hm).1, him, he⟩

theorem Window.nextIndex_not_mem (h : Window q n₀ D frame P j) (hn : n₀ + j ∉ P)
    (hs : 0 < q.size) : q.nextIndex ∉ q.stock := by
  obtain ⟨k, hk⟩ := size_pos_iff.mp hs
  have hP : P ≠ [] := by
    rintro rfl
    obtain ⟨n, hnw, -⟩ := h.mem_stock.mp hk
    simp [waiting] at hnw
  rw [h.nextIndex hP, h.mem_stock]
  rintro ⟨m, hm, he⟩
  obtain ⟨hmP, hml⟩ := mem_waiting.mp hm
  have := Cyclic.eq_of_emod_eq he (a := (n₀ : ℤ) + j)
    ⟨by omega, by have := q.maxIndex_pos; omega⟩ ⟨by omega, h.span m hm⟩
  obtain rfl : m = n₀ + j := by omega
  exact hn hmP

theorem Window.pop (h : Window q n₀ D frame P j) (hD : D ≤ q.capacity) :
    (n₀ + j ∈ P ∧ q.pop.1 = some (((n₀ + j : ℕ) : ℤ) % q.maxIndex, frame (n₀ + j)) ∧
      Window q.pop.2 n₀ D frame P (j + 1)) ∨ (n₀ + j ∉ P ∧ q.pop = (none, q)) := by
  by_cases hn : n₀ + j ∈ P
  · have hP : P ≠ [] := List.ne_nil_of_mem hn
    have hw : n₀ + j ∈ waiting n₀ j P := mem_waiting.mpr ⟨hn, le_rfl⟩
    have hmem : q.nextIndex ∈ q.stock := h.mem_stock.mpr ⟨_, hw, h.nextIndex hP⟩
    rcases pop_cases q with ⟨-, h0 | ⟨hna, -⟩⟩ | ⟨q', k, d, hp, hf⟩
    · have := size_pos_iff.mpr ⟨_, hmem⟩
      omega
    · exact absurd hmem hna
    · obtain rfl : k = ((n₀ + j : ℕ) : ℤ) % q.maxIndex :=
        (hf.eq_nextIndex hmem).trans (h.nextIndex hP)
      obtain ⟨n, hnw, hkn, hd⟩ := (h.stock _ d).mp hf.lookup
      obtain rfl : n = n₀ + j := h.index_inj hnw hw hkn.symm
      rw [hp, hd]
      exact Or.inl ⟨hn, rfl, h.taken hn hf⟩
  · refine Or.inr ⟨hn, ?_⟩
    rcases pop_cases q with ⟨hp, -⟩ | ⟨q', k, d, -, hf⟩
    · exact hp
    · have hs : 0 < q.size := size_pos_iff.mpr ⟨k, hf.mem⟩
      have hlt := h.size_lt hn hs
      have := hf.gap (h.nextIndex_not_mem hn hs)
      omega

@[simp] theorem maxIndex_untaggedStep (op : Op δ) :
    (untaggedStep q op).2.maxIndex = q.maxIndex := by
  cases op with
  | push n d => simp [untaggedStep]
  | pop =>
    rcases pop_cases q with ⟨hp, -⟩ | ⟨q', k, d, hp, hf⟩
    · simp [untaggedStep, hp]
    · simp [untaggedStep, hp, hf.maxIndex]

@[simp] theorem capacity_untaggedStep (op : Op δ) :
    (untaggedStep q op).2.capacity = q.capacity := by
  cases op with
  | push n d => simp [untaggedStep]
  | pop =>
    rcases pop_cases q with ⟨hp, -⟩ | ⟨q', k, d, hp, hf⟩
    · simp [untaggedStep, hp]
    · simp [untaggedStep, hp, hf.capacity]

theorem bounds_state {M : ℤ} {c : ℕ} (hM : 0 < M) (ops : List (Op δ)) :
    (Mealy.state untaggedStep (.empty M c hM) ops).maxIndex = M ∧
      (Mealy.state untaggedStep (.empty M c hM) ops).capacity = c :=
  Mealy.invariant (I := fun q : OrderedQueue δ => q.maxIndex = M ∧ q.capacity = c) ops ⟨rfl, rfl⟩
    fun q op h => by simpa using h

/-- The window is kept along every run of arrivals and pops, and the frames handed out are
the first ones of the sequence. -/
theorem window_run {M : ℤ} {c : ℕ} (hM : 0 < M) (hc : 2 * (c : ℤ) ≤ M) (hD : D ≤ c)
    {ops : List (Op δ)} (h : Arrives (.empty M c hM) n₀ D frame ops) :
    Window (Mealy.state untaggedStep (.empty M c hM) ops) n₀ D frame (numbers ops)
        (handedOut (.empty M c hM) ops).length ∧
      handedOut (.empty M c hM) ops =
        (List.range (handedOut (.empty M c hM) ops).length).map
          fun i => (((n₀ + i : ℕ) : ℤ) % M, frame (n₀ + i)) := by
  induction ops using List.reverseRecOn with
  | nil => exact ⟨window_init c hM, rfl⟩
  | append_singleton ops op ih =>
    obtain ⟨hw, hout⟩ := ih (Arrives.of_append h)
    obtain ⟨hMs, hcs⟩ := bounds_state hM (c := c) ops
    cases op with
    | push n d =>
      have ha := h ops n d [] rfl
      rw [handedOut_push, numbers_append, numbers_push, Mealy.state_append, ha.data]
      exact ⟨hw.push (by rw [hMs, hcs]; exact hc) (by rw [hcs]; exact hD) ha.room ha.first
        ha.from_first ha.once ha.displaced, hout⟩
    | pop =>
      rw [handedOut_pop, numbers_append, numbers_pop, List.append_nil, Mealy.state_append]
      rcases hw.pop (by rw [hcs]; exact hD) with ⟨-, hp, hw'⟩ | ⟨-, hp⟩
      · rw [hMs] at hp
        rw [hp]
        refine ⟨by simpa [untaggedStep] using hw', ?_⟩
        rw [Option.toList_some, List.length_append, List.length_singleton, List.range_succ,
          List.map_append, ← hout]
        rfl
      · rw [hp]
        refine ⟨by simpa [untaggedStep, hp] using hw, by simpa using hout⟩

end Reorder

open Reorder

end SourceCompanion.OrderedQueue
