import Mathlib.Logic.Relation
import SourceCompanion.ClockTAI.Offset

/-! # Fetching an offset step by step

A call of `get_valid_offset` first takes the mutex of the clock, and holds it until it returns. In
between it reads the bulletin in memory, loads the cache, downloads from one URL after the other,
stores what it downloaded, or chooses among what has expired.
-/

namespace SourceCompanion.ClockTAI

inductive Fetch where
  | locking
  | checking
  | loading
  | downloading (urls : List (String × ℕ)) (bulletins : List Bulletin)
  | storing (newBulletin : Bulletin)
  | choosing (bulletins : List Bulletin)
  | returned (outcome : Outcome)

namespace Fetch

def Holds : Fetch → Prop
  | .locking | .returned _ => False
  | _ => True

/-- The call is in a download or accesses the file of the cache. -/
def Busy : Fetch → Prop
  | .loading | .downloading (_ :: _) _ | .storing _ => True
  | _ => False

def Checks : Fetch → Prop
  | .checking => True
  | _ => False

instance : DecidablePred Busy
  | .loading | .downloading (_ :: _) _ | .storing _ => inferInstanceAs (Decidable True)
  | .locking | .checking | .downloading [] _ | .choosing _ | .returned _ =>
    inferInstanceAs (Decidable False)

instance : DecidablePred Checks
  | .checking => inferInstanceAs (Decidable True)
  | .locking | .loading | .downloading .. | .storing _ | .choosing _ | .returned _ =>
    inferInstanceAs (Decidable False)

section

variable (sort : List Bulletin → List Bulletin) (env : Env)

def next (s : ClockTAI) : Fetch → Fetch × ClockTAI
  | .checking =>
    let state := s.bulletin.state env.now
    if state.usable env.now then (.returned (.ok state), s) else (.loading, s)
  | .loading =>
    let cacheBulletin := Bulletin.loadFromFile taiCacheLocation env.load s.cache
    let cacheState := cacheBulletin.state env.now
    if cacheState.usable env.now then
      (.returned (.ok cacheState), { s with bulletin := cacheBulletin })
    else (.downloading s.bulletinUrls.zipIdx [s.bulletin, cacheBulletin], s)
  | .downloading [] bulletins => (.choosing bulletins, s)
  | .downloading ((url, i) :: urls) bulletins =>
    match env.download i with
    | .error _ => (.downloading urls bulletins, s)
    | .ok text =>
      let newBulletin : Bulletin := { source := url, bulletinOrOverride := .inl text }
      if (newBulletin.state env.now).usable env.now then
        (.storing newBulletin, { s with bulletin := newBulletin })
      else (.downloading urls (bulletins ++ [newBulletin]), s)
  | .storing newBulletin =>
    (.returned (.ok (newBulletin.state env.now)),
      { s with cache := (newBulletin.storeToCache env.store s.cache).2 })
  | .choosing bulletins =>
    match (sort bulletins).find? fun b => (b.state env.now).valid with
    | some bulletin => (.returned (.ok (bulletin.state env.now)), { s with bulletin })
    | none => (.returned (.error .downloadFailed), s)
  | .locking => (.locking, s)
  | .returned outcome => (.returned outcome, s)

def Steps : Fetch × ClockTAI → Fetch × ClockTAI → Prop :=
  Relation.ReflTransGen fun p q => next sort env p.2 p.1 = q

end

section Lemmas

variable {sort : List Bulletin → List Bulletin} {env : Env}

/-- The steps of the loop over the URLs. -/
theorem steps_downloading (s : ClockTAI) (urls : List (String × ℕ)) (bulletins : List Bulletin) :
    Steps sort env (.downloading urls bulletins, s)
      (match tryUrls s env urls bulletins with
        | .inl (state, s) => (.returned (.ok state), s)
        | .inr bulletins => (.choosing bulletins, s)) := by
  induction urls generalizing bulletins with
  | nil => exact .single rfl
  | cons u urls ih =>
    obtain ⟨url, i⟩ := u
    rw [tryUrls]
    cases hdown : env.download i with
    | error e =>
      apply Relation.ReflTransGen.head _ (ih bulletins)
      simp only [next, hdown]
    | ok text =>
      dsimp only
      cases husable : ((⟨url, .inl text⟩ : Bulletin).state env.now).usable env.now with
      | true =>
        apply Relation.ReflTransGen.head
          (b := (.storing ⟨url, .inl text⟩, { s with bulletin := ⟨url, .inl text⟩ }))
        · simp only [next, hdown, husable, if_true]
        · exact .single rfl
      | false =>
        simp only [Bool.false_eq_true, if_false]
        apply Relation.ReflTransGen.head
          (b := (.downloading urls (bulletins ++ [⟨url, .inl text⟩]), s))
        · simp only [next, hdown, husable, Bool.false_eq_true, if_false]
        · exact ih _

theorem steps_getValidOffset (s : ClockTAI) :
    Steps sort env (.checking, s)
      (.returned (getValidOffset sort s env).1, (getValidOffset sort s env).2) := by
  unfold getValidOffset
  dsimp only
  cases hmem : (s.bulletin.state env.now).usable env.now with
  | true => exact .single (by simp only [next, hmem, if_true])
  | false =>
    simp only [Bool.false_eq_true, if_false]
    apply Relation.ReflTransGen.head (b := (.loading, s))
    · simp only [next, hmem, Bool.false_eq_true, if_false]
    · cases hcache : ((Bulletin.loadFromFile taiCacheLocation env.load s.cache).state
        env.now).usable env.now with
      | true => exact .single (by simp only [next, hcache, if_true])
      | false =>
        apply Relation.ReflTransGen.head (b := (.downloading s.bulletinUrls.zipIdx
          [s.bulletin, Bulletin.loadFromFile taiCacheLocation env.load s.cache], s))
        · simp only [next, hcache, Bool.false_eq_true, if_false]
        · apply (steps_downloading s s.bulletinUrls.zipIdx _).trans
          simp only [Bool.false_eq_true, if_false]
          rcases tryUrls s env s.bulletinUrls.zipIdx
            [s.bulletin, Bulletin.loadFromFile taiCacheLocation env.load s.cache] with
            ⟨newState, s'⟩ | bulletins
          · exact .refl
          · apply Relation.ReflTransGen.single
            dsimp only [next]
            cases (sort bulletins).find? fun b => (b.state env.now).valid <;> rfl

theorem holds_iff {f : Fetch} : f.Holds ↔ f ≠ .locking ∧ ∀ outcome, f ≠ .returned outcome := by
  cases f <;> simp [Holds]

theorem Busy.holds {f : Fetch} (h : f.Busy) : f.Holds := by
  cases f with
  | loading | storing newBulletin => trivial
  | downloading urls bulletins => trivial
  | locking | checking | choosing bulletins | returned outcome => exact h.elim

theorem Checks.eq {f : Fetch} (h : f.Checks) : f = .checking := by
  cases f with
  | checking => rfl
  | _ => exact h.elim

theorem next_ne_locking {f : Fetch} (h : f ≠ .locking) (s : ClockTAI) :
    (next sort env s f).1 ≠ .locking := by
  fun_cases next sort env s f <;> simp_all

theorem busy_next {f : Fetch} {s : ClockTAI} (h : (next sort env s f).1.Busy) :
    f.Busy ∨ (f = .checking ∧ ¬ (s.bulletin.state env.now).usable env.now) := by
  cases f with
  | checking =>
    right
    refine ⟨rfl, fun husable => ?_⟩
    simp only [next, husable, if_true] at h
    exact h
  | loading => exact Or.inl trivial
  | downloading urls bulletins =>
    cases urls with
    | nil => exact h.elim
    | cons u urls => exact Or.inl trivial
  | storing newBulletin => exact Or.inl trivial
  | choosing bulletins =>
    simp only [next] at h
    split at h
    · exact h.elim
    · exact h.elim
  | locking => exact h.elim
  | returned outcome => exact h.elim

theorem next_checking {s : ClockTAI} (h : ¬ (s.bulletin.state env.now).usable env.now) :
    next sort env s .checking = (.loading, s) := by
  simp [next, h]

end Lemmas

end Fetch

end SourceCompanion.ClockTAI
