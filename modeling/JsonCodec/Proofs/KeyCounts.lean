import Mathlib
import JsonCodec.Proofs.KeyCache

set_option autoImplicit false

namespace JsonCodec.KeyCache

def noteCall (asked : List Bytes) : Call → List Bytes
  | .intern bytes => bytes :: asked
  | .contains _ => asked
  | .clear => []

def askedFor (calls : List Call) : List Bytes := calls.foldl noteCall []

def isShort (bytes : Bytes) : Bool := bytes.length ≤ maxKeyLength

def residueOf (bytes : Bytes) : Fin capacity := slotOf (KeyHash.ofBytes bytes)

/-- The residues of the short keys among some. -/
def residues (asked : List Bytes) : Finset (Fin capacity) :=
  ((asked.filter isShort).map residueOf).toFinset

theorem isShort_iff (bytes : Bytes) : isShort bytes = true ↔ bytes.length ≤ maxKeyLength := by
  simp [isShort]

theorem residues_short {bytes : Bytes} (h : isShort bytes = true) (asked : List Bytes) :
    residues (bytes :: asked) = insert (residueOf bytes) (residues asked) := by
  simp [residues, h]

theorem residues_long {bytes : Bytes} (h : isShort bytes = false) (asked : List Bytes) :
    residues (bytes :: asked) = residues asked := by
  simp [residues, h]

def occupied (cache : KeyCache) : Finset (Fin capacity) :=
  Finset.univ.filter fun i => (cache.slotAt i).isSome

theorem mem_occupied {cache : KeyCache} {i : Fin capacity} :
    i ∈ cache.occupied ↔ (cache.slotAt i).isSome = true := by
  simp [occupied]

theorem occupied_eq_empty {cache : KeyCache} (h : ∀ i, cache.slotAt i = none) :
    cache.occupied = ∅ := by
  rw [Finset.eq_empty_iff_forall_notMem]
  intro i
  simp [mem_occupied, h]

theorem occupied_congr {cache cache' : KeyCache} (h : ∀ i, cache'.slotAt i = cache.slotAt i) :
    cache'.occupied = cache.occupied := by
  ext i
  rw [mem_occupied, mem_occupied, h]

theorem occupied_store (cache : KeyCache) (hash : UInt64) (bytes : Bytes) :
    (cache.store hash bytes).2.occupied = insert (slotOf hash) cache.occupied := by
  ext i
  rw [mem_occupied, slotAt_store, Finset.mem_insert, mem_occupied]
  by_cases h : slotOf hash = i
  · simp [h]
  · simp [h, Ne.symm h]

theorem slots_make (cache : KeyCache) (bytes : Bytes) :
    (cache.make bytes).2.slots = cache.slots := by
  unfold make
  split_ifs <;> rfl

theorem occupancy_make (cache : KeyCache) (bytes : Bytes) :
    (cache.make bytes).2.occupancy = cache.occupancy := by
  unfold make
  split_ifs <;> rfl

theorem occupancy_store (cache : KeyCache) (hash : UInt64) (bytes : Bytes) :
    (cache.store hash bytes).2.occupancy =
      if slotOf hash ∈ cache.occupied then cache.occupancy else cache.occupancy + 1 := by
  have hslot : (cache.make bytes).2.slots[slotOf hash] = cache.slotAt (slotOf hash) :=
    slotAt_make cache bytes (slotOf hash)
  simp only [store, hslot, occupancy_make, mem_occupied]
  cases cache.slotAt (slotOf hash) <;> simp

structure Counts (cache : KeyCache) (asked : List Bytes) : Prop where
  residues : cache.occupied = residues asked
  occupancy : cache.occupancy = cache.occupied.card
  misses : cache.occupancy ≤ cache.misses
  short : cache.hits + cache.misses = asked.countP isShort
  long : cache.bypasses = asked.countP (! isShort ·)

namespace Counts

variable {cache : KeyCache} {asked : List Bytes} {bytes : Bytes}

theorem clear (cache : KeyCache) : Counts cache.clear [] := by
  have hempty : cache.clear.occupied = ∅ :=
    occupied_eq_empty fun i => by simp [KeyCache.clear, KeyCache.empty, slotAt]
  exact ⟨hempty, by rw [hempty]; rfl, le_rfl, rfl, rfl⟩

theorem hit (h : Counts cache asked) (hc : cache.contains bytes = true) :
    Counts (cache.intern bytes).2 (bytes :: asked) := by
  obtain ⟨hl, key, hslot, -, hrun⟩ := intern_of_contains hc
  have hshort := (isShort_iff bytes).2 hl
  have hmem : residueOf bytes ∈ cache.occupied := by
    rw [mem_occupied, residueOf, hslot]
    rfl
  rw [h.residues] at hmem
  rw [hrun]
  refine ⟨?_, h.occupancy, h.misses, ?_, ?_⟩
  · rw [residues_short hshort, Finset.insert_eq_of_mem hmem]
    exact h.residues
  · rw [List.countP_cons_of_pos hshort, ← h.short, Nat.add_right_comm]
  · simpa [hshort] using h.long

theorem miss (h : Counts cache asked) (hl : bytes.length ≤ maxKeyLength)
    (hc : cache.contains bytes = false) : Counts (cache.intern bytes).2 (bytes :: asked) := by
  have hshort := (isShort_iff bytes).2 hl
  rw [intern_of_not_contains hl hc]
  set hash := KeyHash.ofBytes bytes with hhash
  obtain ⟨hhits, hmisses, hbypasses⟩ := counters_make cache bytes
  have hoccupied := occupied_store cache hash bytes
  have hoccupancy := occupancy_store cache hash bytes
  have hm : (cache.store hash bytes).2.misses = cache.misses + 1 := congrArg (· + 1) hmisses
  have hh : (cache.store hash bytes).2.hits = cache.hits := hhits
  have hb : (cache.store hash bytes).2.bypasses = cache.bypasses := hbypasses
  refine ⟨?_, ?_, ?_, ?_, ?_⟩
  · rw [hoccupied, residues_short hshort, h.residues, residueOf]
  · rw [hoccupancy, hoccupied, Finset.card_insert_eq_ite, h.occupancy]
  · have := h.misses
    rw [hoccupancy, hm]
    split_ifs <;> omega
  · rw [hh, hm, List.countP_cons_of_pos hshort, ← h.short, Nat.add_assoc]
  · rw [hb]
    simpa [hshort] using h.long

theorem bypass (h : Counts cache asked) (hl : maxKeyLength < bytes.length) :
    Counts (cache.intern bytes).2 (bytes :: asked) := by
  have hlong : isShort bytes = false := by
    rw [← Bool.not_eq_true, isShort_iff]
    exact Nat.not_le.2 hl
  rw [intern_long hl]
  let counted := { cache with bypasses := cache.bypasses + 1 }
  obtain ⟨hhits, hmisses, hbypasses⟩ := counters_make counted bytes
  have hoccupied : (counted.make bytes).2.occupied = cache.occupied :=
    occupied_congr (slotAt_make counted bytes)
  have hoccupancy : (counted.make bytes).2.occupancy = cache.occupancy := occupancy_make counted bytes
  refine ⟨?_, ?_, ?_, ?_, ?_⟩
  · rw [hoccupied, residues_long hlong, h.residues]
  · rw [hoccupancy, hoccupied, h.occupancy]
  · rw [hoccupancy, hmisses]
    exact h.misses
  · rw [hhits, hmisses]
    simpa [hlong] using h.short
  · rw [hbypasses]
    simpa [counted, hlong] using h.long

theorem intern (h : Counts cache asked) (bytes : Bytes) :
    Counts (cache.intern bytes).2 (bytes :: asked) := by
  by_cases hl : bytes.length ≤ maxKeyLength
  · cases hc : cache.contains bytes with
    | true => exact h.hit hc
    | false => exact h.miss hl hc
  · exact h.bypass (Nat.lt_of_not_le hl)

theorem after {h : History} (hcounts : Counts h.cache asked) (call : Call) :
    Counts (h.after call).cache (noteCall asked call) := by
  cases call with
  | intern bytes => exact hcounts.intern bytes
  | contains bytes => exact hcounts
  | clear => exact .clear _

theorem foldl {h : History} (hcounts : Counts h.cache asked) (calls : List Call) :
    Counts (calls.foldl History.after h).cache (calls.foldl noteCall asked) := by
  induction calls generalizing h asked with
  | nil => exact hcounts
  | cons call calls ih => exact ih (hcounts.after call)

theorem of (calls : List Call) : Counts (History.of calls).cache (askedFor calls) :=
  @foldl _ History.new (.clear KeyCache.empty) calls

end Counts

/-- Empties a slot, and counts it off if it held a key. -/
def release (cache : KeyCache) (i : Fin capacity) : KeyCache :=
  if (cache.slotAt i).isSome then
    { cache with slots := cache.slots.set i none i.isLt, occupancy := cache.occupancy - 1 }
  else cache

def releaseAll (cache : KeyCache) : KeyCache := (List.finRange capacity).foldl release cache

theorem slotAt_release (cache : KeyCache) (i j : Fin capacity) :
    (cache.release i).slotAt j = if i = j then none else cache.slotAt j := by
  unfold release
  split_ifs with hsome hij hij
  · subst hij
    simp [slotAt]
  · exact Vector.getElem_set_ne i.isLt j.isLt fun h => hij (Fin.ext h)
  · subst hij
    simpa using hsome
  · rfl

theorem occupied_release (cache : KeyCache) (i : Fin capacity) :
    (cache.release i).occupied = cache.occupied.erase i := by
  ext j
  rw [mem_occupied, slotAt_release, Finset.mem_erase, mem_occupied]
  by_cases h : i = j
  · simp [h]
  · simp [h, Ne.symm h]

theorem occupancy_release {cache : KeyCache} (h : cache.occupancy = cache.occupied.card)
    (i : Fin capacity) : (cache.release i).occupancy = (cache.release i).occupied.card := by
  rw [occupied_release]
  by_cases hi : i ∈ cache.occupied
  · rw [Finset.card_erase_of_mem hi, ← h, release, if_pos (mem_occupied.1 hi)]
  · rw [Finset.erase_eq_of_notMem hi, ← h, release, if_neg fun hs => hi (mem_occupied.2 hs)]

theorem foldl_release {cache : KeyCache} (h : cache.occupancy = cache.occupied.card)
    (places : List (Fin capacity)) :
    (places.foldl release cache).occupancy = (places.foldl release cache).occupied.card ∧
      (∀ j, (places.foldl release cache).slotAt j = if j ∈ places then none else cache.slotAt j) ∧
      (places.foldl release cache).made = cache.made := by
  -- the count is right before every slot, so no slot is counted off that was not counted
  induction places generalizing cache with
  | nil => exact ⟨h, by simp, rfl⟩
  | cons i places ih =>
    obtain ⟨hoccupancy, hslots, hmade⟩ := ih (occupancy_release h i)
    refine ⟨hoccupancy, fun j => ?_, ?_⟩
    · rw [List.foldl_cons, hslots, slotAt_release]
      by_cases hj : j ∈ places
      · simp [hj]
      · by_cases hi : i = j
        · simp [hi]
        · simp [hj, hi, Ne.symm hi]
    · rw [List.foldl_cons, hmade]
      unfold release
      split_ifs <;> rfl

/-- When all slots are emptied, none is left to be counted. -/
theorem clear_eq_releaseAll {cache : KeyCache} (h : cache.occupancy = cache.occupied.card) :
    cache.clear = { cache.releaseAll with hits := 0, misses := 0, bypasses := 0 } := by
  obtain ⟨hoccupancy, hslots, hmade⟩ := foldl_release h (List.finRange capacity)
  have hnone : ∀ j, cache.releaseAll.slotAt j = none := fun j => by
    rw [releaseAll, hslots, if_pos (List.mem_finRange j)]
  have hzero : cache.releaseAll.occupancy = 0 := by
    rw [releaseAll, hoccupancy, ← releaseAll, occupied_eq_empty hnone, Finset.card_empty]
  have hempty : cache.releaseAll.slots = Vector.replicate capacity none := by
    refine Vector.ext fun i hi => ?_
    rw [Vector.getElem_replicate]
    exact hnone ⟨i, hi⟩
  have hsame : cache.releaseAll.made = cache.made := hmade
  simp only [clear, KeyCache.empty, hempty, hzero, hsame]

/-- What the table and the counters tell of the calls. -/
structure Accounts (h : History) (asked : List Bytes) : Prop where
  slots : ∀ i slot, h.cache.slotAt i = some slot →
    slot.key.bytes.length ≤ maxKeyLength ∧ slot.hash = KeyHash.ofBytes slot.key.bytes ∧
      slot.hash.toNat % capacity = i
  occupancy : h.cache.occupancy = h.cache.occupied.card
  residues : h.cache.occupancy = (residues asked).card
  occupancy_le : h.cache.occupancy ≤ capacity
  occupancy_le_misses : h.cache.occupancy ≤ h.cache.misses
  bypasses : h.cache.bypasses = asked.countP (! isShort ·)
  hits_add_misses : h.cache.hits + h.cache.misses = asked.countP isShort
  long : ∀ bytes, maxKeyLength < bytes.length →
    (h.after (.intern bytes)).cache.slots = h.cache.slots
  contains : ∀ bytes, (h.after (.contains bytes)).cache.slots = h.cache.slots
  clear : (h.after .clear).cache =
    { h.cache.releaseAll with hits := 0, misses := 0, bypasses := 0 }

theorem accounts (calls : List Call) : Accounts (History.of calls) (askedFor calls) := by
  have hcounts := Counts.of calls
  have htracks := Tracks.of calls
  have hresidues : (History.of calls).cache.occupancy = (residues (askedFor calls)).card := by
    rw [hcounts.occupancy, hcounts.residues]
  refine ⟨?_, hcounts.occupancy, hresidues, ?_, hcounts.misses, hcounts.long, hcounts.short, ?_,
    fun _ => rfl, clear_eq_releaseAll hcounts.occupancy⟩
  · intro i slot hslot
    rw [htracks.slots] at hslot
    obtain ⟨⟨b, k⟩, hlatest, rfl⟩ := Option.map_eq_some_iff.1 hslot
    obtain ⟨hmem, hl, hi⟩ := latest_spec hlatest
    obtain rfl := htracks.bytes b k hmem
    exact ⟨hl, rfl, congrArg Fin.val hi⟩
  · rw [hresidues]
    exact (Finset.card_le_univ _).trans_eq (Fintype.card_fin capacity)
  · intro bytes hl
    exact (congrArg (fun r => r.2.slots) (intern_long hl _)).trans (slots_make _ bytes)

end JsonCodec.KeyCache
