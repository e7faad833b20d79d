import Mathlib
import JsonCodec.Proofs.Decode.Value
import JsonCodec.Proofs.Grammar.Ends

set_option autoImplicit false

/-!
# Reading trees

What the reader accepts is the text of a tree, and it gives the value that the tree is put together
to. The keys it takes have the bytes that the names spell, whatever the cache holds.
-/
namespace JsonCodec.Reader
open Grammar Runs

variable (o : DecodeOptions) (extent : Extent)

theorem value_openBracket (levels : Nat) (text : Bytes) (keys : KeyCache) :
    value o extent (levels + 1) ⟨Byte.openBracket :: text, keys⟩ =
      array (value o extent levels) ⟨text, keys⟩ := by
  rw [value_cons o extent _ (by decide)]
  rfl

theorem value_openBrace (levels : Nat) (text : Bytes) (keys : KeyCache) :
    value o extent (levels + 1) ⟨Byte.openBrace :: text, keys⟩ =
      object o (value o extent levels) ⟨text, keys⟩ := by
  rw [value_cons o extent _ (by decide)]
  rfl

theorem array_run {item : Reader Parsed} {s s' : Cursor} {ps : List Parsed}
    (h : content .array item s = .ok ps s') :
    array item s = .ok { value := .array (ps.map Parsed.value) } s' := by
  rw [array, bind_run, h]
  rfl

def stored (m : Key × Value) : Bytes × Value := (m.1.bytes, m.2)

def collect (members : List (Bytes × Value)) : Value :=
  .object {
    entries := Object.dropRepeated Prod.fst members
    index := (Object.ofList members).index }

theorem object_run {item : Reader Parsed} {s s' : Cursor} {ms : List (Key × Value)}
    (h : content .object (member o item) s = .ok ms s') :
    ∃ parsed, object o item s = .ok parsed s' ∧ parsed.value = collect (ms.map stored) := by
  have hkept := Object.lastOfEach_map stored Prod.fst ms
  have hfst := Object.lastOfEach_fst Prod.fst (ms.map stored)
  rw [object, bind_run, h]
  refine ⟨_, rfl, ?_⟩
  rw [collect, ← hfst, Object.ofList, hkept]
  rfl

theorem value_empty (c : Container) (blanks : Blanks) (levels : Nat) (rest : Bytes)
    (keys : KeyCache) :
    ∃ parsed, value o extent (levels + 1) ⟨(Tree.empty c blanks).text ++ rest, keys⟩ =
        .ok parsed ⟨rest, keys⟩ ∧
      parsed.value = (Tree.empty c blanks).value (Token.value o.bigInteger) := by
  rw [Tree.text, List.cons_append, List.append_assoc, List.singleton_append]
  cases c with
  | array =>
    have hcontent := content_empty .array (value o extent levels) blanks rest keys
    refine ⟨{ value := .array [] }, ?_, by rw [Tree.value]⟩
    rw [openingByte, value_openBracket]
    exact array_run hcontent
  | object =>
    have hcontent := content_empty .object (member o (value o extent levels)) blanks rest keys
    obtain ⟨parsed, hrun, hvalue⟩ := object_run o hcontent
    refine ⟨parsed, ?_, ?_⟩
    · rw [openingByte, value_openBrace]
      exact hrun
    · rw [hvalue, Tree.value]
      rfl

theorem content_body {α : Type} {c : Container} {item : Reader α} (hs : SkipsBlanks item)
    (blanks : Blanks) {b : UInt8} (hb : Opens b) {body rest : Bytes} {keys : KeyCache}
    {as : List α} {cursor : Cursor}
    (h : ∀ fuel, body.length + 1 ≤ fuel →
      items c item fuel ⟨blanks.text ++ b :: body ++ c.close :: rest, keys⟩ = .ok as cursor) :
    content c item ⟨blanks.text ++ b :: body ++ c.close :: rest, keys⟩ = .ok as cursor := by
  have hclose : b ≠ c.close := by
    cases c
    · exact hb.2.1
    · exact hb.2.2.1
  have htext : (blanks.text ++ b :: body ++ c.close :: rest).dropWhile Byte.isSpace =
      b :: (body ++ c.close :: rest) := by
    rw [List.append_assoc]
    exact dropWhile_blanks blanks (by simpa [NotAhead] using hb.1)
  rw [content_items hs htext hclose]
  apply h _
  rw [List.length_append]
  omega

mutual

theorem value_tree (t : Tree) (levels : Nat) (hd : t.depth ≤ levels)
    (hr : ∀ k ∈ t.tokens, k.Readable o) (rest : Bytes) (he : t.Ends extent rest)
    (keys : KeyCache) :
    ∃ parsed keys', value o extent levels ⟨t.text ++ rest, keys⟩ = .ok parsed ⟨rest, keys'⟩ ∧
      parsed.value = t.value (Token.value o.bigInteger) := by
  match t with
  | .token k =>
    have h := value_token o extent levels (hr k (by simp [Tree.tokens])) he keys
    exact ⟨{ value := k.value o.bigInteger }, keys, by rwa [Tree.text], by rw [Tree.value]⟩
  | .empty c blanks =>
    rw [Tree.depth] at hd
    obtain ⟨levels, rfl⟩ := Nat.exists_eq_add_of_le' hd
    obtain ⟨parsed, h, hv⟩ := value_empty o extent c blanks levels rest keys
    exact ⟨parsed, keys, h, hv⟩
  | .array is =>
    rw [Tree.depth] at hd
    obtain ⟨levels, rfl⟩ := Nat.exists_eq_add_of_le' (Nat.le_of_add_left_le hd)
    rw [Tree.tokens] at hr
    obtain ⟨ps, keys', hitems, hv⟩ := items_tree is levels (by omega) hr rest keys
    obtain ⟨blanks, b, body, hbody, hb, hlen⟩ := is.exists_body (Token.value o.bigInteger)
    rw [hbody] at hitems
    have hcontent := content_body (skipsBlanks_value o extent levels) blanks hb
      fun fuel hf => hitems fuel (hlen.trans hf)
    refine ⟨{ value := .array (ps.map Parsed.value) }, keys', ?_, ?_⟩
    · rw [Tree.text, List.cons_append, List.append_assoc, List.singleton_append, hbody,
        value_openBracket]
      exact array_run hcontent
    · rw [Tree.value, hv]
  | .object ms =>
    rw [Tree.depth] at hd
    obtain ⟨levels, rfl⟩ := Nat.exists_eq_add_of_le' (Nat.le_of_add_left_le hd)
    rw [Tree.tokens] at hr
    obtain ⟨entries, keys', hitems, hv⟩ := members_tree ms levels (by omega) hr rest keys
    obtain ⟨blanks, b, body, hbody, hb, hlen⟩ := ms.exists_body (Token.value o.bigInteger)
    rw [hbody] at hitems
    have hcontent := content_body (skipsBlanks_member o (value o extent levels)) blanks hb
      fun fuel hf => hitems fuel (hlen.trans hf)
    obtain ⟨parsed, hrun, hparsed⟩ := object_run o hcontent
    refine ⟨parsed, keys', ?_, ?_⟩
    · rw [Tree.text, List.cons_append, List.append_assoc, List.singleton_append, hbody,
        value_openBrace]
      exact hrun
    · rw [hparsed, hv, Tree.value]
      rfl

theorem items_tree (is : Items) (levels : Nat) (hd : is.depth ≤ levels)
    (hr : ∀ k ∈ is.tokens, k.Readable o) (rest : Bytes) (keys : KeyCache) :
    ∃ ps keys', (∀ fuel, (is.values (Token.value o.bigInteger)).length ≤ fuel →
        items .array (value o extent levels) fuel
          ⟨is.text ++ Byte.closeBracket :: rest, keys⟩ = .ok ps ⟨rest, keys'⟩) ∧
      ps.map Parsed.value = is.values (Token.value o.bigInteger) := by
  match is with
  | .last before item after =>
    rw [Items.depth] at hd
    rw [Items.tokens] at hr
    have hstop := (stops_blanks after (stops_close .array rest)).tree extent item
    obtain ⟨parsed, keys', h, hv⟩ := value_tree item levels hd hr _ hstop keys
    refine ⟨[parsed], keys', fun fuel hf => ?_, by simp [Items.values, hv]⟩
    obtain ⟨fuel, rfl⟩ := Nat.exists_eq_add_of_le' (show 1 ≤ fuel by simpa [Items.values] using hf)
    refine items_last after ?_ fuel
    rw [Items.text, List.append_assoc, List.append_assoc,
      (skipsBlanks_value o extent levels).run before (item.notAhead_space _)]
    exact h
  | .more before item after more =>
    rw [Items.depth, max_le_iff] at hd
    rw [Items.tokens] at hr
    have hstop := (stops_blanks after (stops_comma (more.text ++ Byte.closeBracket :: rest))).tree
      extent item
    obtain ⟨parsed, keys₁, h, hv⟩ := value_tree item levels hd.1
      (fun k hk => hr k (List.mem_append_left _ hk)) _ hstop keys
    obtain ⟨ps, keys₂, hs, hvs⟩ := items_tree more levels hd.2
      (fun k hk => hr k (List.mem_append_right _ hk)) rest keys₁
    refine ⟨parsed :: ps, keys₂, fun fuel hf => ?_, by simp [Items.values, hv, hvs]⟩
    rw [Items.values, List.length_cons] at hf
    obtain ⟨fuel, rfl⟩ := Nat.exists_eq_add_of_le' (Nat.le_of_add_left_le hf)
    refine items_more after ?_ (hs fuel (by omega))
    rw [Items.text, List.append_assoc, List.append_assoc, List.append_assoc,
      (skipsBlanks_value o extent levels).run before (item.notAhead_space _)]
    exact h

theorem members_tree (ms : Members) (levels : Nat) (hd : ms.depth ≤ levels)
    (hr : ∀ k ∈ ms.tokens, k.Readable o) (rest : Bytes) (keys : KeyCache) :
    ∃ entries keys', (∀ fuel, (ms.entries (Token.value o.bigInteger)).length ≤ fuel →
        items .object (member o (value o extent levels)) fuel
          ⟨ms.text ++ Byte.closeBrace :: rest, keys⟩ = .ok entries ⟨rest, keys'⟩) ∧
      entries.map stored = ms.entries (Token.value o.bigInteger) := by
  match ms with
  | .last name before item after =>
    rw [Members.depth] at hd
    rw [Members.tokens] at hr
    have hstop := (stops_blanks after (stops_close .object rest)).tree extent item
    obtain ⟨k, keys₁, hk, hmember⟩ := member_run o (value o extent levels) name
      (hr _ List.mem_cons_self)
      (before.text ++ (item.text ++ (after.text ++ Container.object.close :: rest))) keys
    obtain ⟨parsed, keys₂, h, hv⟩ := value_tree item levels hd
      (fun k hk => hr k (List.mem_cons_of_mem _ hk)) _ hstop keys₁
    rw [(skipsBlanks_value o extent levels).run before (item.notAhead_space _)] at hmember
    rw [h] at hmember
    refine ⟨[(k, parsed.value)], keys₂, fun fuel hf => ?_, by simp [Members.entries, stored, hk, hv]⟩
    obtain ⟨fuel, rfl⟩ := Nat.exists_eq_add_of_le' (show 1 ≤ fuel by simpa [Members.entries] using hf)
    refine items_last after ?_ fuel
    simp only [Members.text, List.append_assoc]
    exact hmember
  | .more name before item after more =>
    rw [Members.depth, max_le_iff] at hd
    rw [Members.tokens] at hr
    have hstop := (stops_blanks after (stops_comma (more.text ++ Byte.closeBrace :: rest))).tree
      extent item
    obtain ⟨k, keys₁, hk, hmember⟩ := member_run o (value o extent levels) name
      (hr _ List.mem_cons_self)
      (before.text ++ (item.text ++
        (after.text ++ Byte.comma :: (more.text ++ Byte.closeBrace :: rest)))) keys
    obtain ⟨parsed, keys₂, h, hv⟩ := value_tree item levels hd.1
      (fun k hk => hr k (List.mem_cons_of_mem _ (List.mem_append_left _ hk))) _ hstop keys₁
    obtain ⟨entries, keys₃, hs, hvs⟩ := members_tree more levels hd.2
      (fun k hk => hr k (List.mem_cons_of_mem _ (List.mem_append_right _ hk))) rest keys₂
    rw [(skipsBlanks_value o extent levels).run before (item.notAhead_space _)] at hmember
    rw [h] at hmember
    refine ⟨(k, parsed.value) :: entries, keys₃, fun fuel hf => ?_,
      by simp [Members.entries, stored, hk, hv, hvs]⟩
    rw [Members.entries, List.length_cons] at hf
    obtain ⟨fuel, rfl⟩ := Nat.exists_eq_add_of_le' (Nat.le_of_add_left_le hf)
    refine items_more after ?_ (hs fuel (by omega))
    simp only [Members.text, List.append_assoc, List.cons_append]
    exact hmember

end

def StartsWithTree (levels : Nat) (text rest : Bytes) : Prop :=
  ∃ (blanks : Blanks) (t : Tree), text = blanks.text ++ t.text ++ rest ∧ t.depth ≤ levels ∧
    (∀ k ∈ t.tokens, k.Readable o) ∧ t.Ends extent rest

theorem exists_items (levels fuel : Nat)
    (ih : ∀ text keys parsed rest keys', value o extent levels ⟨text, keys⟩ =
      .ok parsed ⟨rest, keys'⟩ → StartsWithTree o extent levels text rest)
    {text : Bytes} {keys : KeyCache} {ps : List Parsed} {cursor : Cursor}
    (h : items .array (value o extent levels) fuel ⟨text, keys⟩ = .ok ps cursor) :
    ∃ is : Items, text = is.text ++ Byte.closeBracket :: cursor.rest ∧ is.depth ≤ levels ∧
      ∀ k ∈ is.tokens, k.Readable o := by
  induction fuel generalizing text keys ps with
  | zero => cases h
  | succ fuel ihf =>
    obtain ⟨a, after, rest, keys', ⟨hitem, -, rfl⟩ | ⟨as, hitem, -, hs⟩⟩ := items_eq_ok h
    · obtain ⟨before, t, rfl, hd, hr, -⟩ := ih _ _ _ _ _ hitem
      refine ⟨.last before t after, ?_, hd, hr⟩
      simp only [Items.text, List.append_assoc]
      rfl
    · obtain ⟨before, t, rfl, hd, hr, -⟩ := ih _ _ _ _ _ hitem
      obtain ⟨more, rfl, hd', hr'⟩ := ihf hs
      refine ⟨.more before t after more, ?_, max_le hd hd', ?_⟩
      · simp only [Items.text, List.append_assoc, List.cons_append]
      · intro k hk
        rcases List.mem_append.1 hk with hk | hk
        · exact hr k hk
        · exact hr' k hk

theorem exists_members (levels fuel : Nat)
    (ih : ∀ text keys parsed rest keys', value o extent levels ⟨text, keys⟩ =
      .ok parsed ⟨rest, keys'⟩ → StartsWithTree o extent levels text rest)
    {text : Bytes} {keys : KeyCache} {entries : List (Key × Value)} {cursor : Cursor}
    (h : items .object (member o (value o extent levels)) fuel ⟨text, keys⟩ = .ok entries cursor) :
    ∃ ms : Members, text = ms.text ++ Byte.closeBrace :: cursor.rest ∧ ms.depth ≤ levels ∧
      ∀ k ∈ ms.tokens, k.Readable o := by
  induction fuel generalizing text keys entries with
  | zero => cases h
  | succ fuel ihf =>
    obtain ⟨a, after, rest, keys', ⟨hitem, -, rfl⟩ | ⟨as, hitem, -, hs⟩⟩ := items_eq_ok h
    · obtain ⟨name, tail, rfl, hp, parsed, keys₁, hvalue⟩ := member_eq_ok hitem
      obtain ⟨before, t, rfl, hd, hr, -⟩ := ih _ _ _ _ _ hvalue
      refine ⟨.last name before t after, ?_, hd, ?_⟩
      · simp only [Members.text, List.append_assoc]
        rfl
      · intro k hk
        rcases List.mem_cons.1 hk with rfl | hk
        · exact hp
        · exact hr k hk
    · obtain ⟨name, tail, rfl, hp, parsed, keys₁, hvalue⟩ := member_eq_ok hitem
      obtain ⟨before, t, rfl, hd, hr, -⟩ := ih _ _ _ _ _ hvalue
      obtain ⟨more, rfl, hd', hr'⟩ := ihf hs
      refine ⟨.more name before t after more, ?_, max_le hd hd', ?_⟩
      · simp only [Members.text, List.append_assoc, List.cons_append]
      · intro k hk
        rcases List.mem_cons.1 hk with rfl | hk
        · exact hp
        · rcases List.mem_append.1 hk with hk | hk
          · exact hr k hk
          · exact hr' k hk

theorem exists_array {levels : Nat}
    (ih : ∀ text keys parsed rest keys', value o extent levels ⟨text, keys⟩ =
      .ok parsed ⟨rest, keys'⟩ → StartsWithTree o extent levels text rest)
    {text rest : Bytes} {keys keys' : KeyCache} {parsed : Parsed}
    (h : array (value o extent levels) ⟨text, keys⟩ = .ok parsed ⟨rest, keys'⟩) :
    ∃ t : Tree, Byte.openBracket :: text = t.text ++ rest ∧ t.depth ≤ levels + 1 ∧
      (∀ k ∈ t.tokens, k.Readable o) ∧ t.Ends extent rest := by
  obtain ⟨ps, s, hcontent, h⟩ := bind_eq_ok.1 h
  obtain ⟨-, rfl⟩ := EStateM.Result.ok.inj h
  rcases content_eq_ok (skipsBlanks_value o extent levels) hcontent with
    ⟨blanks, rest', rfl, -, hs⟩ | ⟨fuel, hs⟩
  · obtain ⟨rfl, -⟩ := Cursor.mk.inj hs
    refine ⟨.empty .array blanks, ?_, by simp [Tree.depth], by simp [Tree.tokens], trivial⟩
    simp [Tree.text, openingByte]
  · obtain ⟨is, rfl, hd, hr⟩ := exists_items o extent levels fuel ih hs
    refine ⟨.array is, ?_, by simpa [Tree.depth] using hd, by simpa [Tree.tokens] using hr, trivial⟩
    simp [Tree.text]

theorem exists_object {levels : Nat}
    (ih : ∀ text keys parsed rest keys', value o extent levels ⟨text, keys⟩ =
      .ok parsed ⟨rest, keys'⟩ → StartsWithTree o extent levels text rest)
    {text rest : Bytes} {keys keys' : KeyCache} {parsed : Parsed}
    (h : object o (value o extent levels) ⟨text, keys⟩ = .ok parsed ⟨rest, keys'⟩) :
    ∃ t : Tree, Byte.openBrace :: text = t.text ++ rest ∧ t.depth ≤ levels + 1 ∧
      (∀ k ∈ t.tokens, k.Readable o) ∧ t.Ends extent rest := by
  obtain ⟨entries, s, hcontent, h⟩ := bind_eq_ok.1 h
  obtain ⟨-, rfl⟩ := EStateM.Result.ok.inj h
  rcases content_eq_ok (skipsBlanks_member o (value o extent levels)) hcontent with
    ⟨blanks, rest', rfl, -, hs⟩ | ⟨fuel, hs⟩
  · obtain ⟨rfl, -⟩ := Cursor.mk.inj hs
    refine ⟨.empty .object blanks, ?_, by simp [Tree.depth], by simp [Tree.tokens], trivial⟩
    simp [Tree.text, openingByte]
  · obtain ⟨ms, rfl, hd, hr⟩ := exists_members o extent levels fuel ih hs
    refine ⟨.object ms, ?_, by simpa [Tree.depth] using hd, by simpa [Tree.tokens] using hr, trivial⟩
    simp [Tree.text]

theorem exists_token {inside : Container → Reader Parsed} {b : UInt8} {text rest : Bytes}
    {keys keys' : KeyCache} {parsed : Parsed} (hbrace : b ≠ Byte.openBrace)
    (hbracket : b ≠ Byte.openBracket)
    (h : dispatch o extent inside b ⟨b :: text, keys⟩ = .ok parsed ⟨rest, keys'⟩) :
    ∃ t : Token, b :: text = t.text ++ rest ∧ t.Readable o ∧ t.Ends extent rest := by
  rw [dispatch, if_neg hbrace, if_neg hbracket] at h
  split_ifs at h with hq ht hf hnull hnum hnan hinf
  · obtain ⟨_, s, hskip, h⟩ := bind_eq_ok.1 h
    obtain ⟨-, rfl⟩ := EStateM.Result.ok.inj hskip
    obtain ⟨bytes, s, hscan, h⟩ := bind_eq_ok.1 h
    obtain ⟨rest', hcontent, rfl⟩ := scan_eq_ok.1 hscan
    obtain ⟨-, hs⟩ := EStateM.Result.ok.inj h
    obtain ⟨rfl, -⟩ := Cursor.mk.inj hs
    obtain ⟨ps, hp, htext, -⟩ := StringLiteral.content_eq_ok hcontent
    simp only [List.drop_one, List.tail_cons] at htext
    exact ⟨.string ps, by simp [hq, htext, Token.text], hp, trivial⟩
  · exact ⟨.word .true, named_eq_ok h, by simp [Token.Readable, Word.isNonFinite], trivial⟩
  · exact ⟨.word .false, named_eq_ok h, by simp [Token.Readable, Word.isNonFinite], trivial⟩
  · exact ⟨.word .null, named_eq_ok h, by simp [Token.Readable, Word.isNonFinite], trivial⟩
  · obtain ⟨v, s, hscan, h⟩ := bind_eq_ok.1 h
    obtain ⟨rest', hvalue, rfl⟩ := scan_eq_ok.1 hscan
    obtain ⟨-, hs⟩ := EStateM.Result.ok.inj h
    obtain ⟨rfl, -⟩ := Cursor.mk.inj hs
    rcases NumberLiteral.value_eq_ok hvalue with ⟨n, htext, hends, hv⟩ | ⟨ho, htext, -⟩
    · exact ⟨.numeral n, htext, by simp [Token.Readable, hv], hends⟩
    · exact ⟨.word .negativeInfinity, htext, fun _ => ho, trivial⟩
  · exact ⟨.word .nan, named_eq_ok h, fun _ => (Bool.and_eq_true_iff.1 hnan).1, trivial⟩
  · exact ⟨.word .infinity, named_eq_ok h, fun _ => (Bool.and_eq_true_iff.1 hinf).1, trivial⟩
  · cases h

/-- What the reader has taken off a text is blanks and a tree. -/
theorem startsWithTree_of_value (levels : Nat) (text : Bytes) (keys : KeyCache) (parsed : Parsed)
    (rest : Bytes) (keys' : KeyCache)
    (h : value o extent levels ⟨text, keys⟩ = .ok parsed ⟨rest, keys'⟩) :
    StartsWithTree o extent levels text rest := by
  induction levels generalizing text keys parsed rest keys' with
  | zero =>
    rw [value_eq] at h
    obtain ⟨b, s, hp, h⟩ := bind_eq_ok.1 h
    obtain ⟨blanks, tail, rfl, -, rfl⟩ := peek_eq_ok hp
    by_cases hbrace : b = Byte.openBrace
    · subst hbrace
      cases h
    by_cases hbracket : b = Byte.openBracket
    · subst hbracket
      cases h
    obtain ⟨t, ht, hr, he⟩ := exists_token o extent hbrace hbracket h
    exact ⟨blanks, .token t, by simp [Tree.text, ht], by simp [Tree.depth],
      by simpa [Tree.tokens] using hr, he⟩
  | succ levels ih =>
    rw [value_eq] at h
    obtain ⟨b, s, hp, h⟩ := bind_eq_ok.1 h
    obtain ⟨blanks, tail, rfl, -, rfl⟩ := peek_eq_ok hp
    by_cases hbrace : b = Byte.openBrace
    · subst hbrace
      have hrun : object o (value o extent levels) ⟨tail, keys⟩ = .ok parsed ⟨rest, keys'⟩ := h
      obtain ⟨t, ht, hd, hr, he⟩ := exists_object o extent ih hrun
      exact ⟨blanks, t, by rw [ht, List.append_assoc], hd, hr, he⟩
    by_cases hbracket : b = Byte.openBracket
    · subst hbracket
      have hrun : array (value o extent levels) ⟨tail, keys⟩ = .ok parsed ⟨rest, keys'⟩ := h
      obtain ⟨t, ht, hd, hr, he⟩ := exists_array o extent ih hrun
      exact ⟨blanks, t, by rw [ht, List.append_assoc], hd, hr, he⟩
    obtain ⟨t, ht, hr, he⟩ := exists_token o extent hbrace hbracket h
    exact ⟨blanks, .token t, by simp [Tree.text, ht], by simp [Tree.depth],
      by simpa [Tree.tokens] using hr, he⟩

theorem value_blanks_tree (levels : Nat) (blanks : Blanks) {t : Tree} (hd : t.depth ≤ levels)
    (hr : ∀ k ∈ t.tokens, k.Readable o) {rest : Bytes} (he : t.Ends extent rest)
    (keys : KeyCache) :
    ∃ parsed keys', value o extent levels ⟨blanks.text ++ t.text ++ rest, keys⟩ =
        .ok parsed ⟨rest, keys'⟩ ∧
      parsed.value = t.value (Token.value o.bigInteger) := by
  rw [List.append_assoc,
    (skipsBlanks_value o extent levels).run blanks (t.notAhead_space rest)]
  exact value_tree o extent t levels hd hr rest he keys

end JsonCodec.Reader
