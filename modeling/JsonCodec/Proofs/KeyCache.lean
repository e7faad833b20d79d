import Mathlib
import JsonCodec.KeyCache

set_option autoImplicit false

namespace JsonCodec.KeyCache

def slotAt (cache : KeyCache) (i : Fin capacity) : Option Slot := cache.slots[i]

theorem bytes_make (cache : KeyCache) (bytes : Bytes) : (cache.make bytes).1.bytes = bytes := by
  unfold make
  split_ifs with h
  · rw [List.isEmpty_iff.1 h]
    rfl
  · rfl

theorem slotAt_make (cache : KeyCache) (bytes : Bytes) (i : Fin capacity) :
    (cache.make bytes).2.slotAt i = cache.slotAt i := by
  unfold make
  split_ifs <;> rfl

theorem counters_make (cache : KeyCache) (bytes : Bytes) :
    (cache.make bytes).2.hits = cache.hits ∧ (cache.make bytes).2.misses = cache.misses ∧
      (cache.make bytes).2.bypasses = cache.bypasses := by
  unfold make
  split_ifs <;> exact ⟨rfl, rfl, rfl⟩

theorem slotAt_store (cache : KeyCache) (hash : UInt64) (bytes : Bytes) (i : Fin capacity) :
    (cache.store hash bytes).2.slotAt i =
      if slotOf hash = i then some ⟨hash, (cache.store hash bytes).1⟩ else cache.slotAt i := by
  rw [← slotAt_make cache bytes i]
  by_cases h : slotOf hash = i
  · subst h
    simp [slotAt, store]
  · rw [if_neg h]
    exact Vector.getElem_set_ne (slotOf hash).isLt i.isLt fun hi => h (Fin.ext hi)

theorem intern_long {bytes : Bytes} (h : maxKeyLength < bytes.length) (cache : KeyCache) :
    cache.intern bytes = { cache with bypasses := cache.bypasses + 1 }.make bytes := by
  rw [intern, if_pos h]

variable {cache : KeyCache} {bytes : Bytes}

/-- What is contained is handed out again. -/
theorem intern_of_contains (h : cache.contains bytes = true) :
    bytes.length ≤ maxKeyLength ∧ ∃ key,
      cache.slotAt (slotOf (KeyHash.ofBytes bytes)) = some ⟨KeyHash.ofBytes bytes, key⟩ ∧
      key.bytes = bytes ∧ cache.intern bytes = (key, { cache with hits := cache.hits + 1 }) := by
  rw [contains] at h
  split_ifs at h with hl
  refine ⟨Nat.le_of_not_lt hl, ?_⟩
  rw [intern, if_neg hl]
  simp only at h ⊢
  cases hs : cache.slots[slotOf (KeyHash.ofBytes bytes)] with
  | none => simp [hs] at h
  | some slot =>
    rw [hs] at h
    simp only at h
    have hholds := h
    simp only [Slot.holds, Bool.and_eq_true, beq_iff_eq] at hholds
    obtain ⟨hash, key⟩ := slot
    obtain ⟨rfl, hkey⟩ := hholds
    exact ⟨key, hs, hkey, by simp only [h, ↓reduceIte]⟩

/-- What is not contained is made anew, and takes its slot. -/
theorem intern_of_not_contains (hl : bytes.length ≤ maxKeyLength)
    (h : cache.contains bytes = false) :
    cache.intern bytes = cache.store (KeyHash.ofBytes bytes) bytes := by
  rw [contains, if_neg (Nat.not_lt.2 hl)] at h
  rw [intern, if_neg (Nat.not_lt.2 hl)]
  simp only at h ⊢
  cases hs : cache.slots[slotOf (KeyHash.ofBytes bytes)] with
  | none => rfl
  | some slot =>
    rw [hs] at h
    simp only at h
    simp only [h, Bool.false_eq_true, ↓reduceIte]

theorem bytes_intern (cache : KeyCache) (bytes : Bytes) : (cache.intern bytes).1.bytes = bytes := by
  by_cases hl : bytes.length ≤ maxKeyLength
  · cases h : cache.contains bytes with
    | true =>
      obtain ⟨-, key, -, hkey, hrun⟩ := intern_of_contains h
      rw [hrun]
      exact hkey
    | false =>
      rw [intern_of_not_contains hl h]
      exact bytes_make cache bytes
  · rw [intern_long (Nat.lt_of_not_le hl)]
    exact bytes_make _ bytes

/-- Instances that are told apart by their serial numbers, of which so many were given. -/
structure Instances (made : Nat) (keys : List Key) : Prop where
  bound : ∀ k ∈ keys, k.serial ≤ made
  unnumbered : ∀ k ∈ keys, k.serial = 0 ∨ k.bytes = [] → k = Key.empty
  same : ∀ k ∈ keys, ∀ k' ∈ keys, k.serial = k'.serial → k = k'

namespace Instances

variable {made : Nat} {keys : List Key}

theorem nil (made : Nat) : Instances made [] := ⟨by simp, by simp, by simp⟩

theorem again (h : Instances made keys) {k : Key} (hk : k ∈ keys) : Instances made (k :: keys) where
  bound k' hk' := by
    obtain rfl | hk' := List.mem_cons.1 hk'
    · exact h.bound k' hk
    · exact h.bound k' hk'
  unnumbered k' hk' := by
    obtain rfl | hk' := List.mem_cons.1 hk'
    · exact h.unnumbered k' hk
    · exact h.unnumbered k' hk'
  same a ha b hb := by
    have hmem (c : Key) (hc : c ∈ k :: keys) : c ∈ keys := by
      obtain rfl | hc := List.mem_cons.1 hc
      · exact hk
      · exact hc
    exact h.same a (hmem a ha) b (hmem b hb)

theorem empty (h : Instances made keys) : Instances made (Key.empty :: keys) where
  bound k hk := by
    obtain rfl | hk := List.mem_cons.1 hk
    · exact Nat.zero_le _
    · exact h.bound k hk
  unnumbered k hk hz := by
    obtain rfl | hk := List.mem_cons.1 hk
    · rfl
    · exact h.unnumbered k hk hz
  same a ha b hb hab := by
    obtain rfl | ha := List.mem_cons.1 ha
    · obtain rfl | hb := List.mem_cons.1 hb
      · rfl
      · exact (h.unnumbered b hb (.inl hab.symm)).symm
    · obtain rfl | hb := List.mem_cons.1 hb
      · exact h.unnumbered a ha (.inl hab)
      · exact h.same a ha b hb hab

theorem fresh (h : Instances made keys) {bytes : Bytes} (hb : bytes ≠ []) :
    Instances (made + 1) (⟨bytes, made + 1⟩ :: keys) where
  bound k hk := by
    obtain rfl | hk := List.mem_cons.1 hk
    · exact le_rfl
    · exact (h.bound k hk).trans (Nat.le_succ _)
  unnumbered k hk hz := by
    obtain rfl | hk := List.mem_cons.1 hk
    · obtain hz | hz := hz
      · cases hz
      · exact absurd hz hb
    · exact h.unnumbered k hk hz
  same a ha b hb hab := by
    obtain rfl | ha := List.mem_cons.1 ha
    · obtain rfl | hb := List.mem_cons.1 hb
      · rfl
      · exact absurd (h.bound b hb) (by rw [← hab]; exact Nat.not_succ_le_self _)
    · obtain rfl | hb := List.mem_cons.1 hb
      · exact absurd (h.bound a ha) (by rw [hab]; exact Nat.not_succ_le_self _)
      · exact h.same a ha b hb hab

theorem make (h : Instances cache.made keys) (bytes : Bytes) :
    Instances (cache.make bytes).2.made ((cache.make bytes).1 :: keys) := by
  unfold KeyCache.make
  split_ifs with hb
  · exact h.empty
  · exact h.fresh (by simpa using hb)

/-- Unless it is the empty key, an instance that is made is not one that there is. -/
theorem new_of_make (h : Instances cache.made keys) (hb : bytes ≠ []) {k : Key} (hk : k ∈ keys) :
    (cache.make bytes).1.sameInstance k = false := by
  have hbound := h.bound k hk
  rw [KeyCache.make, if_neg (by simpa using hb)]
  simp only [Key.sameInstance, beq_eq_false_iff_ne, ne_eq]
  omega

end Instances

inductive Call where
  | intern (bytes : Bytes)
  | contains (bytes : Bytes)
  | clear
deriving DecidableEq, Repr

inductive Event where
  | handedOut (bytes : Bytes) (key : Key)
  | cleared
deriving DecidableEq, Repr

/-- A cache, and what has happened to it, the latest first. -/
structure History where
  cache : KeyCache
  events : List Event

def Event.key? : Event → Option Key
  | handedOut _ key => some key
  | cleared => none

def handles (events : List Event) : List Key := events.filterMap Event.key?

/-- The latest call since the cache was cleared that asked for a short key with such a residue, and
the instance it got. -/
def latest (residue : Fin capacity) : List Event → Option (Bytes × Key)
  | [] => none
  | .cleared :: _ => none
  | .handedOut bytes key :: events =>
    if bytes.length ≤ maxKeyLength ∧ slotOf (KeyHash.ofBytes bytes) = residue then some (bytes, key)
    else latest residue events

namespace History

def new : History := ⟨empty, []⟩

def after (h : History) : Call → History
  | .intern bytes =>
    let (key, cache) := h.cache.intern bytes
    ⟨cache, .handedOut bytes key :: h.events⟩
  | .contains _ => h
  | .clear => ⟨h.cache.clear, .cleared :: h.events⟩

def of (calls : List Call) : History := calls.foldl after new

end History

structure Tracks (h : History) : Prop where
  slots : ∀ i, h.cache.slotAt i = (latest i h.events).map fun e => ⟨KeyHash.ofBytes e.1, e.2⟩
  bytes : ∀ b k, .handedOut b k ∈ h.events → k.bytes = b
  instances : Instances h.cache.made (handles h.events)

variable {events : List Event} {h : History}

theorem latest_spec {i : Fin capacity} {b : Bytes} {k : Key} (h : latest i events = some (b, k)) :
    .handedOut b k ∈ events ∧ b.length ≤ maxKeyLength ∧ slotOf (KeyHash.ofBytes b) = i := by
  induction events with
  | nil => cases h
  | cons e events ih =>
    cases e with
    | cleared => cases h
    | handedOut b' k' =>
      rw [latest] at h
      split_ifs at h with hb
      · obtain ⟨rfl, rfl⟩ := Prod.mk.inj (Option.some.inj h)
        exact ⟨List.mem_cons_self, hb⟩
      · obtain ⟨hmem, hspec⟩ := ih h
        exact ⟨List.mem_cons_of_mem _ hmem, hspec⟩

theorem mem_handles {b : Bytes} {k : Key} (h : .handedOut b k ∈ events) : k ∈ handles events :=
  List.mem_filterMap.2 ⟨_, h, rfl⟩

theorem latest_long {bytes : Bytes} (hl : maxKeyLength < bytes.length) (k : Key)
    (i : Fin capacity) : latest i (.handedOut bytes k :: events) = latest i events :=
  if_neg fun h => absurd h.1 (Nat.not_le.2 hl)

theorem latest_self {bytes : Bytes} (hl : bytes.length ≤ maxKeyLength) (k : Key) :
    latest (slotOf (KeyHash.ofBytes bytes)) (.handedOut bytes k :: events) = some (bytes, k) :=
  if_pos ⟨hl, rfl⟩

theorem latest_ne {bytes : Bytes} {i : Fin capacity} (hi : slotOf (KeyHash.ofBytes bytes) ≠ i)
    (k : Key) : latest i (.handedOut bytes k :: events) = latest i events :=
  if_neg fun h => hi h.2

namespace Tracks

theorem new : Tracks History.new where
  slots i := by simp [History.new, KeyCache.empty, slotAt, latest]
  bytes _ _ h := by cases h
  instances := .nil _

theorem contains_iff (ht : Tracks h) (hl : bytes.length ≤ maxKeyLength) :
    h.cache.contains bytes = true ↔
      ∃ k, latest (slotOf (KeyHash.ofBytes bytes)) h.events = some (bytes, k) := by
  have hslot := ht.slots (slotOf (KeyHash.ofBytes bytes))
  constructor
  · intro hc
    obtain ⟨-, key, hs, hkey, -⟩ := intern_of_contains hc
    rw [hs] at hslot
    obtain ⟨⟨b, k⟩, hlatest, heq⟩ := Option.map_eq_some_iff.1 hslot.symm
    obtain ⟨-, rfl⟩ := Slot.mk.inj heq
    obtain rfl := (ht.bytes b k (latest_spec hlatest).1).symm.trans hkey
    exact ⟨k, hlatest⟩
  · rintro ⟨k, hlatest⟩
    rw [hlatest] at hslot
    have hkey := ht.bytes bytes k (latest_spec hlatest).1
    rw [contains, if_neg (Nat.not_lt.2 hl)]
    simp only [slotAt] at hslot
    simp only [hslot, Option.map_some, Slot.holds, hkey, beq_self_eq_true, Bool.and_self]

/-- A hit gives the instance that the latest call got. -/
theorem hit (ht : Tracks h) {k : Key}
    (hlatest : latest (slotOf (KeyHash.ofBytes bytes)) h.events = some (bytes, k)) :
    h.cache.intern bytes = (k, { h.cache with hits := h.cache.hits + 1 }) := by
  obtain ⟨-, hl, -⟩ := latest_spec hlatest
  obtain ⟨-, key, hs, -, hrun⟩ := intern_of_contains ((ht.contains_iff hl).2 ⟨k, hlatest⟩)
  have hslot := ht.slots (slotOf (KeyHash.ofBytes bytes))
  rw [hs, hlatest] at hslot
  rw [hrun, (Slot.mk.inj (Option.some.inj hslot)).2]

theorem handedOut (ht : Tracks h) {r : Key × KeyCache} (hrun : h.cache.intern bytes = r)
    (hslots : ∀ i, r.2.slotAt i =
      (latest i (.handedOut bytes r.1 :: h.events)).map fun e => ⟨KeyHash.ofBytes e.1, e.2⟩)
    (hi : Instances r.2.made (r.1 :: handles h.events)) : Tracks (h.after (.intern bytes)) := by
  subst hrun
  refine ⟨hslots, fun b k hk => ?_, hi⟩
  obtain heq | hk := List.mem_cons.1 hk
  · obtain ⟨rfl, rfl⟩ := Event.handedOut.inj heq
    exact bytes_intern h.cache b
  · exact ht.bytes b k hk

theorem intern (ht : Tracks h) (bytes : Bytes) : Tracks (h.after (.intern bytes)) := by
  by_cases hl : bytes.length ≤ maxKeyLength
  · by_cases hc : ∃ k, latest (slotOf (KeyHash.ofBytes bytes)) h.events = some (bytes, k)
    · obtain ⟨k, hlatest⟩ := hc
      refine ht.handedOut (ht.hit hlatest) (fun i => ?_)
        (ht.instances.again (mem_handles (latest_spec hlatest).1))
      by_cases hi : slotOf (KeyHash.ofBytes bytes) = i
      · subst hi
        rw [latest_self hl, ← hlatest]
        exact ht.slots _
      · rw [latest_ne hi]
        exact ht.slots i
    · have hcontains : h.cache.contains bytes = false := by
        rwa [← Bool.not_eq_true, ht.contains_iff hl]
      refine ht.handedOut (intern_of_not_contains hl hcontains) (fun i => ?_)
        (ht.instances.make bytes)
      rw [slotAt_store]
      split_ifs with hi
      · subst hi
        rw [latest_self hl]
        rfl
      · rw [latest_ne hi]
        exact ht.slots i
  · have hl := Nat.lt_of_not_le hl
    refine ht.handedOut (intern_long hl h.cache) (fun i => ?_)
      (@Instances.make { h.cache with bypasses := h.cache.bypasses + 1 } _ ht.instances bytes)
    rw [slotAt_make, latest_long hl]
    exact ht.slots i

theorem clear (ht : Tracks h) : Tracks (h.after .clear) where
  slots i := by simp [History.after, KeyCache.clear, KeyCache.empty, slotAt, latest]
  bytes b k hk := by
    obtain heq | hk := List.mem_cons.1 hk
    · cases heq
    · exact ht.bytes b k hk
  instances := ht.instances

theorem after (ht : Tracks h) (call : Call) : Tracks (h.after call) := by
  cases call with
  | intern bytes => exact ht.intern bytes
  | contains bytes => exact ht
  | clear => exact ht.clear

theorem foldl (ht : Tracks h) (calls : List Call) : Tracks (calls.foldl History.after h) := by
  induction calls generalizing h with
  | nil => exact ht
  | cons call calls ih => exact ih (ht.after call)

theorem of (calls : List Call) : Tracks (History.of calls) := new.foldl calls

end Tracks

/-- What a cache does after some calls, in terms of these calls and of what they handed out. -/
structure Interns (h : History) : Prop where
  contains : ∀ b, b.length ≤ maxKeyLength → (h.cache.contains b = true ↔
    ∃ k, latest (slotOf (KeyHash.ofBytes b)) h.events = some (b, k))
  hit : ∀ b k, latest (slotOf (KeyHash.ofBytes b)) h.events = some (b, k) →
    h.cache.intern b = (k, { h.cache with hits := h.cache.hits + 1 })
  miss : ∀ b, b.length ≤ maxKeyLength →
    (∀ k, latest (slotOf (KeyHash.ofBytes b)) h.events ≠ some (b, k)) →
    (h.cache.intern b).2.hits = h.cache.hits ∧ (h.cache.intern b).2.misses = h.cache.misses + 1 ∧
      (b ≠ [] → ∀ k ∈ handles h.events, (h.cache.intern b).1.sameInstance k = false)
  bypass : ∀ b, maxKeyLength < b.length →
    (h.cache.intern b).2.hits = h.cache.hits ∧ (h.cache.intern b).2.misses = h.cache.misses ∧
      (h.cache.intern b).2.bypasses = h.cache.bypasses + 1 ∧
      ∀ k ∈ handles h.events, (h.cache.intern b).1.sameInstance k = false
  empty : (h.cache.intern []).1 = Key.empty
  bytes : ∀ b, (h.cache.intern b).1.bytes = b
  instances : ∀ k ∈ handles h.events, ∀ k' ∈ handles h.events,
    k.sameInstance k' = true → k.bytes = k'.bytes

theorem interns (calls : List Call) : Interns (History.of calls) where
  contains b hl := (Tracks.of calls).contains_iff hl
  hit b k hlatest := (Tracks.of calls).hit hlatest
  miss b hl hlatest := by
    have ht := Tracks.of calls
    have hcontains : (History.of calls).cache.contains b = false := by
      rw [← Bool.not_eq_true, ht.contains_iff hl]
      exact fun ⟨k, hk⟩ => hlatest k hk
    obtain ⟨hhits, hmisses, -⟩ := counters_make (History.of calls).cache b
    rw [intern_of_not_contains hl hcontains]
    exact ⟨hhits, congrArg (· + 1) hmisses, fun hb k hk => ht.instances.new_of_make hb hk⟩
  bypass b hl := by
    let counted := { (History.of calls).cache with
      bypasses := (History.of calls).cache.bypasses + 1 }
    have hi : Instances counted.made _ := (Tracks.of calls).instances
    obtain ⟨hhits, hmisses, hbypasses⟩ := counters_make counted b
    have hb : b ≠ [] := by
      rintro rfl
      exact absurd hl (Nat.not_lt_zero _)
    rw [intern_long hl]
    exact ⟨hhits, hmisses, hbypasses, fun k hk => hi.new_of_make hb hk⟩
  empty := by
    have hi := ((Tracks.of calls).intern []).instances
    exact hi.unnumbered _ List.mem_cons_self (.inr (bytes_intern _ []))
  bytes := bytes_intern _
  instances k hk k' hk' h := by
    rw [(Tracks.of calls).instances.same k hk k' hk' (by simpa [Key.sameInstance] using h)]

end JsonCodec.KeyCache
