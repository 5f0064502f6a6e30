import SourceCompanion.ClockTAI.Bulletin

/-! # The bulletin cache

A bulletin is written over the cache file from its beginning, and read back up to the end of the
file. The file is not cut, so what was behind the written part is read as well.
-/

namespace SourceCompanion.ClockTAI

open Bytes

/-- What storing meets: whether the file can be opened and locked, and how many bytes more than
one each call of `write` takes at most, or that it fails. -/
structure StoreEnv where
  opened : Bool
  locked : Bool
  written : ℕ → Option ℕ

/-- What loading meets: whether an existing file can be opened and locked, and how many bytes
more than one each call of `read` gives at most, or that it fails. -/
structure LoadEnv where
  opened : Bool
  locked : Bool
  read : ℕ → Option ℕ

/-- The ways in which storing ends early. Only the first is an exception, the others are
reported. -/
inductive StoreError where
  | badVariantAccess
  | openCache
  | acquireLock
  | writeCache
  deriving DecidableEq, Repr

/-- Write data at an offset. A call writes at least one byte, so the length of the data is
enough fuel. -/
def writeLoop (written : ℕ → Option ℕ) :
    ℕ → ℕ → List UInt8 → ℕ → List UInt8 → Except StoreError Unit × List UInt8
  | 0, _, _, _, file => (.ok (), file)
  | fuel + 1, i, data, offset, file =>
    if data = [] then (.ok (), file)
    else match written i with
      | none => (.error .writeCache, file)
      | some n =>
        writeLoop written fuel (i + 1) (data.drop (n + 1)) (offset + (data.take (n + 1)).length)
          (memcpy file offset (data.take (n + 1)))

/-- Read the rest of a file in blocks of up to 1024 bytes. A call reads at least one byte as long
as there is one, so one more than the length of the rest is enough fuel. -/
def readLoop (read : ℕ → Option ℕ) : ℕ → ℕ → List UInt8 → List UInt8 → Option (List UInt8)
  | 0, _, _, data => some data
  | fuel + 1, i, rest, data =>
    match read i with
    | none => none
    | some n =>
      if rest.take (min (n + 1) 1024) = [] then some data
      else readLoop read fuel (i + 1) (rest.drop (min (n + 1) 1024))
        (data ++ rest.take (min (n + 1) 1024))

namespace Bulletin

/-- Store a bulletin, and the file after that. An absent file is created. -/
def storeToCache (b : Bulletin) (env : StoreEnv) (file : Option (List UInt8)) :
    Except StoreError Unit × Option (List UInt8) :=
  match b.bulletinOrOverride with
  | .inr _ => (.error .badVariantAccess, file)
  | .inl bulletin =>
    if ¬ env.opened then (.error .openCache, file)
    else if ¬ env.locked then (.error .acquireLock, some (file.getD []))
    else
      let (result, content) :=
        writeLoop env.written bulletin.length 0 bulletin 0 (file.getD [])
      (result, some content)

def loadFromFile (cacheFilename : String) (env : LoadEnv) (file : Option (List UInt8)) :
    Bulletin :=
  match file with
  | none => { source := cacheFilename }
  | some content =>
    if ¬ env.opened ∨ ¬ env.locked then { source := cacheFilename }
    else match readLoop env.read (content.length + 1) 0 content [] with
      | none => { source := cacheFilename }
      | some data => { source := cacheFilename, bulletinOrOverride := .inl data }

end Bulletin

structure LoadEnv.Works (env : LoadEnv) : Prop where
  opened : env.opened = true
  locked : env.locked = true
  read : ∀ i, env.read i ≠ none

/-- A complete write loop replaces what was at the places of the data. -/
theorem writeLoop_eq {written : ℕ → Option ℕ} {fuel i : ℕ} {data file : List UInt8} {offset : ℕ}
    (hfuel : data.length ≤ fuel) (hoff : offset ≤ file.length)
    (h : (writeLoop written fuel i data offset file).1 = .ok ()) :
    (writeLoop written fuel i data offset file).2 = memcpy file offset data := by
  induction fuel generalizing i data offset file with
  | zero =>
    obtain rfl : data = [] := List.length_eq_zero_iff.mp (Nat.le_zero.mp hfuel)
    simp [writeLoop, memcpy]
  | succ fuel ih =>
    rw [writeLoop] at h ⊢
    by_cases hnil : data = []
    · subst hnil
      simp [memcpy]
    · rw [if_neg hnil] at h ⊢
      cases hw : written i with
      | none =>
        rw [hw] at h
        cases h
      | some n =>
        rw [hw] at h
        have hlen : (data.take (n + 1)).length = min (n + 1) data.length := List.length_take
        have hpos := List.length_pos_iff.mpr hnil
        have hmem := memcpy_memcpy (data.take (n + 1)) (data.drop (n + 1)) hoff
        rw [List.take_append_drop] at hmem
        rw [← hmem]
        refine ih ?_ ?_ h
        · rw [List.length_drop]
          omega
        · simp only [memcpy, List.length_append, List.length_take]
          omega

theorem readLoop_eq {read : ℕ → Option ℕ} (hread : ∀ i, read i ≠ none) {fuel i : ℕ}
    {rest data : List UInt8} (hfuel : rest.length < fuel) :
    readLoop read fuel i rest data = some (data ++ rest) := by
  induction fuel generalizing i rest data with
  | zero => omega
  | succ fuel ih =>
    obtain ⟨n, hn⟩ := Option.ne_none_iff_exists'.mp (hread i)
    rw [readLoop, hn]
    dsimp only
    by_cases hnil : rest = []
    · subst hnil
      simp
    · have hpos := List.length_pos_iff.mpr hnil
      have htake : rest.take (min (n + 1) 1024) ≠ [] := by
        apply List.length_pos_iff.mp
        rw [List.length_take]
        omega
      rw [if_neg htake, ih, List.append_assoc, List.take_append_drop]
      rw [List.length_drop]
      omega

def announcement : List UInt8 :=
  ascii "#@\t3960057600\n3786825600\t38\t#\n".toList

namespace Bulletin

theorem storeToCache_eq {source : String} {bulletin : List UInt8} {env : StoreEnv}
    {file : Option (List UInt8)}
    (h : (storeToCache ⟨source, .inl bulletin⟩ env file).1 = .ok ()) :
    (storeToCache ⟨source, .inl bulletin⟩ env file).2 =
      some (bulletin ++ (file.getD []).drop bulletin.length) := by
  unfold storeToCache at h ⊢
  dsimp only at h ⊢
  split_ifs at h ⊢
  have hloop := writeLoop_eq le_rfl (Nat.zero_le _) h
  rw [hloop]
  simp [memcpy]

theorem loadFromFile_eq {env : LoadEnv} (hworks : env.Works) (cacheFilename : String)
    (content : List UInt8) :
    loadFromFile cacheFilename env (some content) = ⟨cacheFilename, .inl content⟩ := by
  have hnot : ¬ (¬ env.opened = true ∨ ¬ env.locked = true) := by
    simp [hworks.opened, hworks.locked]
  unfold loadFromFile
  dsimp only
  rw [if_neg hnot, readLoop_eq hworks.read (Nat.lt_succ_self _)]
  rfl

/-- A stored bulletin is loaded with its text exactly when the file was not longer before. -/
theorem load_store_iff {source cacheFilename : String} {bulletin : List UInt8}
    {store : StoreEnv} {load : LoadEnv} {file : Option (List UInt8)}
    (hstore : (storeToCache ⟨source, .inl bulletin⟩ store file).1 = .ok ())
    (hload : load.Works) :
    loadFromFile cacheFilename load (storeToCache ⟨source, .inl bulletin⟩ store file).2 =
        ⟨cacheFilename, .inl bulletin⟩ ↔
      (file.getD []).length ≤ bulletin.length := by
  rw [storeToCache_eq hstore, loadFromFile_eq hload]
  simp

/-- An old bulletin that is longer than the new one leaves its last line behind, and the clock
takes the offset from there. -/
theorem old_tail_is_loaded :
    (storeToCache ⟨"url", .inl announcement⟩ ⟨true, true, fun _ => some 1023⟩
      (some sampleBulletin)).1 = .ok () ∧
    (textState 2000000000 announcement).offset = 38 ∧
    ((loadFromFile "cache" ⟨true, true, fun _ => some 1023⟩
      (storeToCache ⟨"url", .inl announcement⟩ ⟨true, true, fun _ => some 1023⟩
        (some sampleBulletin)).2).state 2000000000).offset = 37 ∧
    ¬ loadFromFile "cache" ⟨true, true, fun _ => some 1023⟩
      (storeToCache ⟨"url", .inl announcement⟩ ⟨true, true, fun _ => some 1023⟩
        (some sampleBulletin)).2 = ⟨"cache", .inl announcement⟩ := by
  refine ⟨by decide +kernel, by decide +kernel, by decide +kernel, by decide +kernel⟩

theorem load_store_shorter :
    loadFromFile "cache" ⟨true, true, fun _ => some 1023⟩
      (storeToCache ⟨"url", .inl sampleBulletin⟩ ⟨true, true, fun _ => some 9⟩
        (some announcement)).2 = ⟨"cache", .inl sampleBulletin⟩ :=
  (load_store_iff (by decide +kernel) ⟨rfl, rfl, by simp⟩).mpr (by decide +kernel)

end Bulletin

end SourceCompanion.ClockTAI
