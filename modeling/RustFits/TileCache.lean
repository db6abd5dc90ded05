import RustFits.Lib.LruCache
import Mathlib.Data.List.Induction

/-!
# The tile cache over a run

`cache.rs`: `BytesBoundLruCache`, which the compressed HDUs and the range reader
share.  Its calls are the operations of `LruCache`.

* `CacheCall` is a call, `runCalls` the cache behind a list of calls and `lastPut`
  the value of the most recent `put` of a key.
* The byte count is right and within the capacity behind every run
  (`wellFormed_runCalls`).
* A `put` that is skipped leaves an older entry of its key where it is.
  `cache_sound_iff` says that a look-up is outdated exactly behind such a call.
-/

namespace RustFits.TileCache

open ByteFile LruCache

inductive CacheCall (κ : Type) where
  | get (key : κ)
  | put (key : κ) (bytes : Bytes)
  | setCapacity (maxBytes : Nat)
  | clear
  deriving DecidableEq, Repr

section

variable {κ : Type} [DecidableEq κ]

def CacheCall.perform (c : LruCache κ) : CacheCall κ → LruCache κ
  | .get key => c.afterGet key
  | .put key bytes => c.put key bytes
  | .setCapacity maxBytes => c.setCapacity maxBytes
  | .clear => c.clear

/-- The cache behind the calls. -/
def runCalls (maxBytes : Nat) (calls : List (CacheCall κ)) : LruCache κ :=
  calls.foldl CacheCall.perform (new maxBytes)

/-- The bytes that a call puts under the key. -/
def CacheCall.stored (key : κ) : CacheCall κ → Option Bytes
  | .put key' bytes => if key' = key then some bytes else none
  | _ => none

/-- The value of the most recent `put` of the key. -/
def lastPut (calls : List (CacheCall κ)) (key : κ) : Option Bytes :=
  calls.reverse.findSome? (CacheCall.stored key)

/-- The byte count is the sum of the lengths and within the capacity, and a look-up
finds nothing or the value of the most recent `put`. -/
structure Sound (maxBytes : Nat) (calls : List (CacheCall κ)) : Prop where
  bytes : (runCalls maxBytes calls).curBytes = bytesOf (runCalls maxBytes calls).entries
  fits : (runCalls maxBytes calls).curBytes ≤ (runCalls maxBytes calls).maxBytes
  fresh : ∀ key bytes, (runCalls maxBytes calls).lookup key = some bytes →
  lastPut calls key = some bytes

/-- A `put` that is skipped finds no other value under its key. -/
def LeavesNoOlder (c : LruCache κ) : CacheCall κ → Prop
  | .put key bytes =>
    (c.maxBytes = 0 ∨ c.maxBytes < bytes.length) → ∀ old, c.lookup key = some old → old = bytes
  | _ => True

theorem runCalls_concat (maxBytes : Nat) (calls : List (CacheCall κ)) (call : CacheCall κ) :
    runCalls maxBytes (calls ++ [call]) = call.perform (runCalls maxBytes calls) := by
  rw [runCalls, List.foldl_append]
  rfl

theorem lastPut_concat (calls : List (CacheCall κ)) (call : CacheCall κ) (key : κ) :
    lastPut (calls ++ [call]) key = (call.stored key).or (lastPut calls key) := by
  rw [lastPut, List.reverse_append, List.reverse_singleton, List.singleton_append,
    List.findSome?_cons]
  cases call.stored key with
  | none => rfl
  | some bytes => rfl

/-! ## One call -/

theorem wellFormed_perform {c : LruCache κ} (h : WellFormed c) (call : CacheCall κ) :
    WellFormed (call.perform c) := by
  cases call with
  | get key => exact (h.afterGet key).1
  | put key bytes => exact h.put key bytes
  | setCapacity maxBytes => exact h.setCapacity maxBytes
  | clear => exact h.clear

/-- The byte count is right and within the capacity, whatever the calls. -/
theorem wellFormed_runCalls (maxBytes : Nat) (calls : List (CacheCall κ)) :
    WellFormed (runCalls maxBytes calls) := by
  induction calls using List.reverseRecOn with
  | nil => exact wellFormed_new maxBytes
  | append_singleton calls call ih =>
    rw [runCalls_concat]
    exact wellFormed_perform ih call

/-- An entry that a call leaves is the one that it has put there, or one from before
under another key, or one that a skipped call has left. -/
theorem lookup_perform {c : LruCache κ} (h : WellFormed c) {call : CacheCall κ}
    (hcall : LeavesNoOlder c call)
    {key : κ} {bytes : Bytes} (hlook : (call.perform c).lookup key = some bytes) :
    call.stored key = some bytes ∨ call.stored key = none ∧ c.lookup key = some bytes := by
  have hmem := (wellFormed_perform h call).lookup_eq_some_iff.1 hlook
  cases call with
  | get key' => exact .inr ⟨rfl, h.lookup_eq_some_iff.2 (((h.afterGet key').2 _).1 hmem)⟩
  | put key' bytes' =>
    by_cases hskip : c.maxBytes = 0 ∨ c.maxBytes < bytes'.length
    · have hold : c.lookup key = some bytes := by
        rw [← hlook]
        show c.lookup key = (c.put key' bytes').lookup key
        rw [put_skipped hskip]
      by_cases hkey : key' = key
      · have hsame : bytes = bytes' := hcall hskip bytes (hkey ▸ hold)
        exact .inl (by simp [CacheCall.stored, hkey, hsame])
      · exact .inr ⟨by simp [CacheCall.stored, hkey], hold⟩
    · obtain ⟨hcap, hroom⟩ := not_or.1 hskip
      obtain ⟨kept, heq, hsuffix, -⟩ := h.put_eq key' hcap (Nat.not_lt.1 hroom)
      have hmem : (key, bytes) ∈ (c.put key' bytes').entries := hmem
      rw [heq] at hmem
      rcases List.mem_append.1 hmem with hmem | hmem
      · have hkept := List.mem_filter.1 (hsuffix.mem hmem)
        have hkey : key' ≠ key := fun heq => by simp [heq] at hkept
        exact .inr ⟨by simp [CacheCall.stored, hkey], h.lookup_eq_some_iff.2 hkept.1⟩
      · have hnew := Prod.mk.inj (List.mem_singleton.1 hmem)
        exact .inl (by simp [CacheCall.stored, hnew.1, hnew.2])
  | setCapacity maxBytes =>
    exact .inr ⟨rfl, h.lookup_eq_some_iff.2 (mem_of_mem_evict hmem)⟩
  | clear => exact absurd hmem List.not_mem_nil

theorem Sound.concat {maxBytes : Nat} {calls : List (CacheCall κ)} {call : CacheCall κ}
    (h : Sound maxBytes calls)
    (hcall : LeavesNoOlder (runCalls maxBytes calls) call) : Sound maxBytes (calls ++ [call]) := by
  have hwell := wellFormed_runCalls maxBytes (calls ++ [call])
  refine ⟨hwell.bytes, hwell.fits, fun key bytes hlook => ?_⟩
  rw [runCalls_concat] at hlook
  rw [lastPut_concat]
  rcases lookup_perform (wellFormed_runCalls maxBytes calls) hcall hlook with hnew | ⟨hnone, hold⟩
  · rw [hnew]
    rfl
  · rw [hnone]
    exact h.fresh key bytes hold

/-- Behind a skipped `put` a look-up is not outdated only if the value is the same. -/
theorem Sound.leavesNoOlder {maxBytes : Nat} {calls : List (CacheCall κ)} {call : CacheCall κ}
    (h : Sound maxBytes (calls ++ [call])) : LeavesNoOlder (runCalls maxBytes calls) call := by
  cases call with
  | put key bytes =>
    intro hskip old hold
    have hsame : (runCalls maxBytes (calls ++ [.put key bytes])).lookup key = some old := by
      rw [runCalls_concat]
      show ((runCalls maxBytes calls).put key bytes).lookup key = some old
      rw [put_skipped hskip]
      exact hold
    have hfresh := h.fresh key old hsame
    rw [lastPut_concat] at hfresh
    simpa [CacheCall.stored] using hfresh.symm
  | get key => trivial
  | setCapacity maxBytes => trivial
  | clear => trivial

/-! ## A run -/

/-- The accounting is right and no look-up is outdated in every state of a run, exactly
when no skipped `put` of the run leaves another value of its key behind. -/
theorem cache_sound_iff (maxBytes : Nat) (calls : List (CacheCall κ)) :
    (∀ done, done <+: calls → Sound maxBytes done) ↔
      ∀ done call, done ++ [call] <+: calls → LeavesNoOlder (runCalls maxBytes done) call := by
  constructor
  · intro h done call hdone
    exact (h _ hdone).leavesNoOlder
  · intro h done
    induction done using List.reverseRecOn with
    | nil =>
      intro _
      exact ⟨rfl, Nat.zero_le _, fun key bytes hlook => nomatch hlook⟩
    | append_singleton done call ih =>
      intro hdone
      exact (ih ((List.prefix_append done [call]).trans hdone)).concat (h done call hdone)

end

/-- An entry of five bytes outlives a `put` of eleven under its key. -/
theorem not_sound_oversized :
    ¬ ∀ (maxBytes : Nat) (calls : List (CacheCall Nat)), Sound maxBytes calls := by
  intro h
  have hfresh := (h 10 [.put 1 [1, 2, 3, 4, 5], .put 1 [0, 0, 0, 0, 0, 0, 0, 0, 0, 0, 0]]).fresh 1
    [1, 2, 3, 4, 5] (by decide)
  exact absurd hfresh (by decide)

end RustFits.TileCache
