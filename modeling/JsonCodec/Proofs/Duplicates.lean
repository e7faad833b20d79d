import Mathlib
import JsonCodec.Proofs.Decode.Document
import JsonCodec.Proofs.Index

set_option autoImplicit false

namespace JsonCodec
open Grammar

namespace Object

variable {α β : Type}

def StandsLast (keyOf : β → Bytes) (members : List β) (i : Nat) : Prop :=
  ∀ m ∈ members[i]?, keyOf m ∉ (members.drop (i + 1)).map keyOf

instance (keyOf : β → Bytes) (members : List β) : DecidablePred (StandsLast keyOf members) :=
  fun i => inferInstanceAs (Decidable (∀ m ∈ members[i]?, keyOf m ∉ (members.drop (i + 1)).map keyOf))

def lastOccurrences (keyOf : β → Bytes) (members : List β) : List β :=
  ((List.range members.length).filter (StandsLast keyOf members)).filterMap (members[·]?)

variable {keyOf : β → Bytes}

theorem standsLast_zero (m : β) (rest : List β) :
    StandsLast keyOf (m :: rest) 0 ↔ keyOf m ∉ rest.map keyOf := by
  simp [StandsLast]

theorem standsLast_succ (m : β) (rest : List β) (i : Nat) :
    StandsLast keyOf (m :: rest) (i + 1) ↔ StandsLast keyOf rest i := by
  simp [StandsLast]

theorem lastOccurrences_cons (m : β) (rest : List β) :
    lastOccurrences keyOf (m :: rest) =
      if keyOf m ∈ rest.map keyOf then lastOccurrences keyOf rest
      else m :: lastOccurrences keyOf rest := by
  have hrest : (((List.range rest.length).map Nat.succ).filter
      (StandsLast keyOf (m :: rest))).filterMap ((m :: rest)[·]?) = lastOccurrences keyOf rest := by
    simp only [List.filter_map, List.filterMap_map, Function.comp_def, Nat.succ_eq_add_one,
      standsLast_succ, List.getElem?_cons_succ, lastOccurrences]
  rw [lastOccurrences, List.length_cons, List.range_succ_eq_map, List.filter_cons]
  simp only [standsLast_zero, decide_not, Bool.not_eq_eq_eq_not, Bool.not_true, decide_eq_false_iff_not]
  split_ifs with h
  · rw [hrest]
  · rw [List.filterMap_cons, hrest]
    rfl

/-- The search keeps the members that stand last. -/
theorem dropRepeated_eq_lastOccurrences (members : List β) :
    dropRepeated keyOf members = lastOccurrences keyOf members := by
  induction members with
  | nil => rfl
  | cons m rest ih =>
    rw [lastOccurrences_cons, dropRepeated, ih]
    exact if_congr (any_key_iff m rest) rfl rfl

/-- Of a list of members those were kept that are the last of their key, each once, and an index that
was built of them knows where each of them stands now. -/
structure LastWins (keyOf : β → Bytes) (members kept : List β) (index : Option KeyIndex) :
    Prop where
  last : kept = lastOccurrences keyOf members
  nodup : (kept.map keyOf).Nodup
  index : ∀ built : KeyIndex, index = some built → ∀ (key : Bytes) (i : Nat),
    built[key]? = some i ↔ (kept.map keyOf)[i]? = some key

theorem lastWins_dropRepeated {members : List β} {index : Option KeyIndex}
    (h : ∀ built, index = some built →
      built = KeyIndex.ofKeys ((dropRepeated keyOf members).map keyOf)) :
    LastWins keyOf members (dropRepeated keyOf members) index where
  last := dropRepeated_eq_lastOccurrences members
  nodup := nodup_keys_dropRepeated members
  index built hbuilt key i := by
    rw [h built hbuilt]
    exact KeyIndex.ofKeys_eq_some_iff (nodup_keys_dropRepeated members)

theorem lastWins_search (members : List β) :
    LastWins keyOf members (dropRepeated keyOf members) none :=
  lastWins_dropRepeated fun _ h => by cases h

theorem lastWins_indexed {members kept : List β}
    (h : kept = keepIndexed keyOf (KeyIndex.ofKeys (members.map keyOf)) members) :
    LastWins keyOf members kept (some (KeyIndex.ofKeys (kept.map keyOf))) := by
  rw [keepIndexed_ofKeys] at h
  subst h
  exact lastWins_dropRepeated fun _ h => (Option.some.inj h).symm

theorem lastWins_lastOfEach (keyOf : β → Bytes) (members : List β) :
    LastWins keyOf members (lastOfEach keyOf members).1 (lastOfEach keyOf members).2 := by
  rw [lastOfEach_fst]
  exact lastWins_dropRepeated fun _ => lastOfEach_snd

end Object

namespace Reader

theorem object_eq_ok {o : DecodeOptions} {item : Reader Parsed} {s s' : Cursor}
    {ms : List (Key × Value)} (h : content .object (member o item) s = .ok ms s') :
    ∃ kept index, object o item s =
        .ok ⟨.object ⟨kept.map stored, index⟩, some (kept.map Prod.fst)⟩ s' ∧
      Object.LastWins (·.1.bytes) ms kept index := by
  refine ⟨_, _, ?_, Object.lastWins_lastOfEach (fun m : Key × Value => m.1.bytes) ms⟩
  rw [object, Runs.bind_run, h]
  rfl

end Reader

/-- Wherever members come in a row, the last one of each key stays. -/
structure DuplicateRemoval : Prop where
  search : ∀ {β : Type} (keyOf : β → Bytes) (members : List β),
    Object.LastWins keyOf members (Object.dropRepeated keyOf members) none
  indexed : ∀ {β : Type} (keyOf : β → Bytes) (members kept : List β),
    kept = Object.keepIndexed keyOf (KeyIndex.ofKeys (members.map keyOf)) members →
    Object.LastWins keyOf members kept (some (KeyIndex.ofKeys (kept.map keyOf)))
  chosen : ∀ {β : Type} (keyOf : β → Bytes) (members : List β),
    Object.LastWins keyOf members (Object.lastOfEach keyOf members).1
      (Object.lastOfEach keyOf members).2
  list : ∀ {α : Type} (members : List (Bytes × α)),
    Object.LastWins Prod.fst members (Object.ofList members).entries (Object.ofList members).index
  reader : ∀ (o : DecodeOptions) (item : Reader Parsed) (s s' : Cursor) (ms : List (Key × Value)),
    Reader.content .object (Reader.member o item) s = .ok ms s' →
    ∃ kept index, Reader.object o item s =
        .ok ⟨.object ⟨kept.map Reader.stored, index⟩, some (kept.map Prod.fst)⟩ s' ∧
      Object.LastWins (·.1.bytes) ms kept index
  text : ∀ (o : DecodeOptions) (before after : Blanks) (ms : Members) (text : Bytes)
    (cache : KeyCache), text = before.text ++ (Tree.object ms).text ++ after.text →
    o.Checks text → (Tree.object ms).depth ≤ o.depthLimit → (∀ k ∈ ms.tokens, k.Readable o) →
    ∃ p keys members, Decode.whole o (.bytes text) cache = (.ok p, keys) ∧
      p.value = .object members ∧
      Object.LastWins Prod.fst (ms.entries (Token.value o.bigInteger)) members.entries members.index

theorem duplicateRemoval : DuplicateRemoval where
  search _ members := Object.lastWins_search members
  indexed _ _ _ h := Object.lastWins_indexed h
  chosen keyOf members := Object.lastWins_lastOfEach keyOf members
  list members := Object.lastWins_lastOfEach Prod.fst members
  reader _ _ _ _ _ h := Reader.object_eq_ok h
  text o before after ms text cache ht hc hd hr := by
    have hr' : ∀ k ∈ (Tree.object ms).tokens, k.Readable o := by rwa [Tree.tokens]
    obtain ⟨p, keys, hrun, hv⟩ := Decode.whole_tree hc ht hd hr' cache
    rw [Tree.value] at hv
    exact ⟨p, keys, _, hrun, hv, Object.lastWins_dropRepeated fun _ => Object.lastOfEach_snd⟩

end JsonCodec
