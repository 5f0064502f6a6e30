import Mathlib.Data.List.Sort
import SourceCompanion.ClockTAI.Cache

/-! # Choosing a bulletin

The offset comes from the first bulletin that has not expired: the one in memory, the one in the
cache, and those at the URLs in their order. If all have expired, the one that expired last is
taken.
-/

namespace SourceCompanion

open ClockTAI

structure ClockTAI where
  bulletinUrls : List String
  bulletin : Bulletin
  cache : Option (List UInt8)

namespace ClockTAI

def taiCacheLocation : String := "/var/tmp/odr-leap-seconds.cache"

/-- What a call meets: the current time, how loading and storing go, and what each of the
downloads gives. -/
structure Env where
  now : ℤ
  load : LoadEnv
  store : StoreEnv
  download : ℕ → Except String (List UInt8)

inductive DownloadFailed where
  | downloadFailed
  deriving DecidableEq, Repr

/-- A sorting function for a strict weak order, that need not be stable. -/
structure Sorts {β : Type} (lt : β → β → Prop) (sort : List β → List β) : Prop where
  perm : ∀ bs, (sort bs).Perm bs
  sorted : ∀ bs, (sort bs).Pairwise fun a b => ¬ lt b a

/-- The order that places bulletins with the largest expiry first. -/
def ExpiresLater (now : ℤ) (a b : Bulletin) : Prop :=
  (a.state now).expiresAt > (b.state now).expiresAt

instance (now : ℤ) : DecidableRel (ExpiresLater now) := fun a b =>
  inferInstanceAs (Decidable ((a.state now).expiresAt > (b.state now).expiresAt))

/-- The loop over the URLs: a usable bulletin ends it, the others are added to those that are
sorted later. A failed download is only reported. -/
def tryUrls (s : ClockTAI) (env : Env) :
    List (String × ℕ) → List Bulletin → (BulletinState × ClockTAI) ⊕ List Bulletin
  | [], bulletins => .inr bulletins
  | (url, i) :: urls, bulletins =>
    match env.download i with
    | .error _ => tryUrls s env urls bulletins
    | .ok text =>
      let newBulletin : Bulletin := { source := url, bulletinOrOverride := .inl text }
      let newState := newBulletin.state env.now
      if newState.usable env.now then
        .inl (newState, { s with
          bulletin := newBulletin
          cache := (newBulletin.storeToCache env.store s.cache).2 })
      else tryUrls s env urls (bulletins ++ [newBulletin])

def getValidOffset (sort : List Bulletin → List Bulletin) (s : ClockTAI) (env : Env) :
    Except DownloadFailed BulletinState × ClockTAI :=
  let state := s.bulletin.state env.now
  if state.usable env.now then (.ok state, s)
  else
    let cacheBulletin := Bulletin.loadFromFile taiCacheLocation env.load s.cache
    let cacheState := cacheBulletin.state env.now
    if cacheState.usable env.now then (.ok cacheState, { s with bulletin := cacheBulletin })
    else match tryUrls s env s.bulletinUrls.zipIdx [s.bulletin, cacheBulletin] with
      | .inl (newState, s) => (.ok newState, s)
      | .inr bulletins =>
        match (sort bulletins).find? fun b => (b.state env.now).valid with
        | some bulletin => (.ok (bulletin.state env.now), { s with bulletin })
        | none => (.error .downloadFailed, s)

def downloaded? (env : Env) (u : String × ℕ) : Option Bulletin :=
  match env.download u.2 with
  | .error _ => none
  | .ok text => some { source := u.1, bulletinOrOverride := .inl text }

/-- All bulletins there are: in memory, in the cache, and at the URLs. -/
def candidates (s : ClockTAI) (env : Env) : List Bulletin :=
  s.bulletin :: Bulletin.loadFromFile taiCacheLocation env.load s.cache ::
    s.bulletinUrls.zipIdx.filterMap (downloaded? env)

section Selection

variable {s : ClockTAI} {env : Env} {sort : List Bulletin → List Bulletin}

/-- The loop ends with the first usable bulletin, or has collected all. -/
theorem tryUrls_eq (urls : List (String × ℕ)) (bulletins : List Bulletin) :
    (∃ b cache, (urls.filterMap (downloaded? env)).find?
        (fun b => (b.state env.now).usable env.now) = some b ∧
      tryUrls s env urls bulletins = .inl (b.state env.now, { s with bulletin := b, cache })) ∨
    ((urls.filterMap (downloaded? env)).find?
        (fun b => (b.state env.now).usable env.now) = none ∧
      tryUrls s env urls bulletins = .inr (bulletins ++ urls.filterMap (downloaded? env))) := by
  induction urls generalizing bulletins with
  | nil => exact Or.inr ⟨rfl, by simp [tryUrls]⟩
  | cons u urls ih =>
    obtain ⟨url, i⟩ := u
    rw [tryUrls, List.filterMap_cons]
    cases hdown : env.download i with
    | error e =>
      have hnone : downloaded? env (url, i) = none := by simp [downloaded?, hdown]
      rw [hnone]
      exact ih bulletins
    | ok text =>
      have hsome : downloaded? env (url, i) = some ⟨url, .inl text⟩ := by
        simp [downloaded?, hdown]
      rw [hsome]
      dsimp only
      cases husable : ((⟨url, .inl text⟩ : Bulletin).state env.now).usable env.now with
      | true =>
        left
        refine ⟨⟨url, .inl text⟩, _, ?_, rfl⟩
        rw [List.find?_cons, husable]
      | false =>
        have := ih (bulletins ++ [⟨url, .inl text⟩])
        rw [List.find?_cons, husable]
        simpa using this

theorem getValidOffset_cases (sort : List Bulletin → List Bulletin) (s : ClockTAI) (env : Env) :
    (∃ b cache, (candidates s env).find? (fun b => (b.state env.now).usable env.now) = some b ∧
      getValidOffset sort s env = (.ok (b.state env.now), { s with bulletin := b, cache })) ∨
    ((candidates s env).find? (fun b => (b.state env.now).usable env.now) = none ∧
      getValidOffset sort s env =
        match (sort (candidates s env)).find? fun b => (b.state env.now).valid with
        | some bulletin => (.ok (bulletin.state env.now), { s with bulletin })
        | none => (.error .downloadFailed, s)) := by
  unfold candidates
  cases hmem : (s.bulletin.state env.now).usable env.now with
  | true =>
    refine Or.inl ⟨s.bulletin, s.cache, ?_, ?_⟩
    · rw [List.find?_cons, hmem]
    · simp only [getValidOffset, hmem, if_true]
  | false =>
    rw [List.find?_cons, hmem, List.find?_cons]
    cases hcache : ((Bulletin.loadFromFile taiCacheLocation env.load s.cache).state
      env.now).usable env.now with
    | true =>
      refine Or.inl ⟨_, s.cache, rfl, ?_⟩
      simp only [getValidOffset, hmem, hcache, Bool.false_eq_true, if_true, if_false]
    | false =>
      rcases tryUrls_eq (s := s) s.bulletinUrls.zipIdx
        [s.bulletin, Bulletin.loadFromFile taiCacheLocation env.load s.cache] with
        ⟨b, cache, hfind, htry⟩ | ⟨hfind, htry⟩
      · refine Or.inl ⟨b, cache, hfind, ?_⟩
        simp only [getValidOffset, hmem, hcache, Bool.false_eq_true, if_false, htry]
      · refine Or.inr ⟨hfind, ?_⟩
        simp only [getValidOffset, hmem, hcache, Bool.false_eq_true, if_false, htry,
          List.cons_append, List.nil_append]

end Selection

theorem Sorts.find?_eq_some {β : Type} {lt : β → β → Prop} {sort : List β → List β}
    (h : Sorts lt sort) {p : β → Bool} {bs : List β} {a : β} (hfind : (sort bs).find? p = some a) :
    a ∈ bs ∧ p a = true ∧ ∀ b ∈ bs, p b = true → b = a ∨ ¬ lt b a := by
  obtain ⟨ha, before, rest, hsort, hbefore⟩ := List.find?_eq_some_iff_append.mp hfind
  have hmem : ∀ b, b ∈ sort bs ↔ b ∈ bs := fun b => (h.perm bs).mem_iff
  have hpair := h.sorted bs
  rw [hsort] at hpair
  refine ⟨(hmem a).mp (by simp [hsort]), ha, fun b hb hpb => ?_⟩
  rw [← hmem, hsort, List.mem_append, List.mem_cons] at hb
  rcases hb with hb | rfl | hb
  · have := hbefore b hb
    simp [hpb] at this
  · exact Or.inl rfl
  · exact Or.inr ((List.pairwise_cons.mp (List.pairwise_append.mp hpair).2.1).1 b hb)

theorem BulletinState.valid_of_usable {s : BulletinState} {now : ℤ} (h : s.usable now = true) :
    s.valid = true := by
  simp only [usable, Bool.and_eq_true] at h
  exact h.1

/-- Two bulletins that can be downloaded, at a time when both have expired. -/
def expiredEnv : Env where
  now := 2000000000
  load := ⟨true, true, fun _ => some 1023⟩
  store := ⟨true, true, fun _ => some 1023⟩
  download i := .ok (if i = 0 then sampleBulletin else announcement)

/-- A call returns the state of the first usable bulletin. If there is none, it returns the state
of a valid bulletin with the largest expiry among the valid ones, and it fails exactly when no
bulletin is valid. The bulletin whose state is returned is kept, and a failure changes nothing. -/
theorem getValidOffset_spec {sort : List Bulletin → List Bulletin} {env : Env}
    (hsort : Sorts (ExpiresLater env.now) sort) (s : ClockTAI) :
    (∀ b, (candidates s env).find? (fun b => (b.state env.now).usable env.now) = some b →
      (getValidOffset sort s env).1 = .ok (b.state env.now) ∧
        (getValidOffset sort s env).2.bulletin = b) ∧
    ((∀ b ∈ candidates s env, ¬ (b.state env.now).usable env.now) →
      (∃ b ∈ candidates s env, (b.state env.now).valid) →
      ∃ b ∈ candidates s env, (b.state env.now).valid ∧
        (∀ b' ∈ candidates s env, (b'.state env.now).valid →
          (b'.state env.now).expiresAt ≤ (b.state env.now).expiresAt) ∧
        (getValidOffset sort s env).1 = .ok (b.state env.now) ∧
        (getValidOffset sort s env).2.bulletin = b) ∧
    ((getValidOffset sort s env).1 = .error .downloadFailed ↔
      ∀ b ∈ candidates s env, ¬ (b.state env.now).valid) ∧
    ((getValidOffset sort s env).1 = .error .downloadFailed →
      (getValidOffset sort s env).2.bulletin = s.bulletin) := by
  rcases getValidOffset_cases sort s env with ⟨b, cache, hfind, heq⟩ | ⟨hnone, heq⟩
  · have hb := List.mem_of_find?_eq_some hfind
    have husable := List.find?_some hfind
    rw [heq]
    refine ⟨fun b' hb' => ?_, fun hno => ?_, ?_, fun h => nomatch h⟩
    · rw [hfind] at hb'
      obtain rfl := Option.some.inj hb'
      exact ⟨rfl, rfl⟩
    · exact absurd husable (hno b hb)
    · constructor
      · intro h
        cases h
      · intro h
        exact absurd (BulletinState.valid_of_usable husable) (h b hb)
  · cases hvalid : (sort (candidates s env)).find? fun b => (b.state env.now).valid with
    | some b =>
      obtain ⟨hb, hbv, hmax⟩ := hsort.find?_eq_some hvalid
      rw [hvalid] at heq
      rw [heq]
      refine ⟨fun b' hb' => ?_, fun _ _ => ⟨b, hb, hbv, fun b' hb' hv => ?_, rfl, rfl⟩, ?_,
        fun h => nomatch h⟩
      · rw [hnone] at hb'
        cases hb'
      · rcases hmax b' hb' hv with rfl | hlt
        · exact le_rfl
        · exact not_lt.mp hlt
      · constructor
        · intro h
          cases h
        · intro h
          exact absurd hbv (h b hb)
    | none =>
      have hinvalid : ∀ b ∈ candidates s env, ¬ (b.state env.now).valid = true := fun b hb =>
        List.find?_eq_none.mp hvalid b ((hsort.perm _).mem_iff.mpr hb)
      rw [hvalid] at heq
      rw [heq]
      refine ⟨fun b' hb' => ?_, fun _ hex => ?_, ?_, fun _ => rfl⟩
      · rw [hnone] at hb'
        cases hb'
      · obtain ⟨b, hb, hbv⟩ := hex
        exact absurd hbv (hinvalid b hb)
      · exact ⟨fun _ => hinvalid, fun _ => rfl⟩

/-- A stable sort with the largest expiry first. -/
def sortByExpiry (now : ℤ) (bulletins : List Bulletin) : List Bulletin :=
  bulletins.mergeSort fun a b => (b.state now).expiresAt ≤ (a.state now).expiresAt

theorem sorts_sortByExpiry (now : ℤ) : Sorts (ExpiresLater now) (sortByExpiry now) := by
  constructor
  · exact fun bs => List.mergeSort_perm bs _
  · intro bs
    refine (List.pairwise_mergeSort (fun a b c hab hbc => ?_) (fun a b => ?_) bs).imp
      fun hab => ?_
    · simp only [decide_eq_true_eq] at *
      exact hbc.trans hab
    · simp only [Bool.or_eq_true, decide_eq_true_eq]
      exact le_total _ _
    · simp only [decide_eq_true_eq] at hab
      exact not_lt.mpr hab

theorem getValidOffset_expired :
    ∃ b ∈ candidates ⟨["first", "second"], {}, none⟩ expiredEnv,
      (b.state expiredEnv.now).valid ∧
        (∀ b' ∈ candidates ⟨["first", "second"], {}, none⟩ expiredEnv,
          (b'.state expiredEnv.now).valid →
            (b'.state expiredEnv.now).expiresAt ≤ (b.state expiredEnv.now).expiresAt) ∧
        (getValidOffset (sortByExpiry expiredEnv.now) ⟨["first", "second"], {}, none⟩
          expiredEnv).1 = .ok (b.state expiredEnv.now) ∧
        (getValidOffset (sortByExpiry expiredEnv.now) ⟨["first", "second"], {}, none⟩
          expiredEnv).2.bulletin = b :=
  (getValidOffset_spec (sorts_sortByExpiry _) _).2.1 (by decide +kernel) (by decide +kernel)

end ClockTAI

end SourceCompanion
