import Mathlib
import JsonCodec.Proofs.Binary64.Reading

set_option autoImplicit false

namespace JsonCodec
open Grammar

theorem notAhead_append {p : UInt8 → Bool} {text : Bytes} (hne : text ≠ []) (more : Bytes) :
    NotAhead p (text ++ more) ↔ NotAhead p text := by
  rw [NotAhead, NotAhead, List.head?_append_of_ne_nil _ hne]

theorem notAhead_of_append {p : UInt8 → Bool} {text more : Bytes}
    (h : NotAhead p (text ++ more)) : NotAhead p text := by
  rcases eq_or_ne text [] with rfl | hne
  · simp [NotAhead]
  · exact (notAhead_append hne more).1 h

theorem isDigit_takeWhile (text : Bytes) :
    ∀ b ∈ text.takeWhile Byte.isDigit, Byte.isDigit b = true := fun _ hb => List.mem_takeWhile_imp hb

namespace Grammar.Exponent

def extend (e : Exponent) (run : Bytes) (h : ∀ b ∈ run, Byte.isDigit b = true) : Exponent :=
  { e with
    digits := ⟨e.digits.first, e.digits.more ++ run, fun b hb =>
      (List.mem_append.1 (List.cons_append ▸ hb)).elim (e.digits.isDigit b) (h b)⟩ }

theorem text_extend (e : Exponent) (run : Bytes) (h : ∀ b ∈ run, Byte.isDigit b = true) :
    (e.extend run h).text = e.text ++ run := by
  simp [text, extend, Digits.text]

end Grammar.Exponent

namespace Binary64

/-- A scanner sees nothing but what it takes, and what it takes whole it takes at least if the text
goes on. -/
structure Greedy {α : Type} (scan : Bytes → Option (α × Bytes)) : Prop where
  takes {text : Bytes} {a : α} {rest : Bytes} (h : scan text = some (a, rest)) :
    ∃ taken, text = taken ++ rest ∧ scan taken = some (a, [])
  reaches {taken : Bytes} {a : α} (h : scan taken = some (a, [])) (more : Bytes) :
    ∃ b rest, scan (taken ++ more) = some (b, rest) ∧ rest <:+ more

namespace Mantissa

theorem Ends.append {m : Mantissa} {rest : Bytes} (h : m.Ends rest) (hne : rest ≠ [])
    (more : Bytes) : m.Ends (rest ++ more) := by
  cases m with
  | whole => exact ⟨(notAhead_append hne more).2 h.1, (notAhead_append hne more).2 h.2⟩
  | pointed => exact (notAhead_append hne more).2 h

theorem Ends.of_append {m : Mantissa} {rest more : Bytes} (h : m.Ends (rest ++ more)) :
    m.Ends rest := by
  cases m with
  | whole => exact ⟨notAhead_of_append h.1, notAhead_of_append h.2⟩
  | pointed => exact notAhead_of_append h

end Mantissa

theorem exponentPart_cases (text : Bytes) :
    exponentPart text = (0, text) ∨
      ∃ (e : Exponent) (rest : Bytes), text = e.text ++ rest ∧ NotAhead Byte.isDigit rest := by
  rcases text with _ | ⟨mark, afterMark⟩
  · exact .inl rfl
  by_cases hm : Byte.isExponentMark mark = true
  · have hsign : ∃ (sign : Option UInt8) (rest : Bytes), (∀ b ∈ sign, Byte.isSign b = true) ∧
        afterMark = sign.toList ++ rest ∧
        (rest.takeWhile Byte.isDigit = [] →
          exponentPart (mark :: afterMark) = (0, mark :: afterMark)) := by
      rcases afterMark with _ | ⟨b, tail⟩
      · exact ⟨none, [], by simp, rfl, by simp [exponentPart, hm]⟩
      · by_cases hb : Byte.isSign b = true
        · exact ⟨some b, tail, by simpa using hb, rfl, fun h => by simp [exponentPart, hm, hb, h]⟩
        · exact ⟨none, b :: tail, by simp, rfl, fun h => by simp [exponentPart, hm, hb, h]⟩
    obtain ⟨sign, rest, hs, rfl, hnone⟩ := hsign
    rcases rest with _ | ⟨b, tail⟩
    · exact .inl (hnone rfl)
    by_cases hb : Byte.isDigit b = true
    · obtain ⟨d, -, hd⟩ := exists_digits hb tail
      refine .inr ⟨⟨mark, sign, d, hm, hs⟩, (b :: tail).dropWhile Byte.isDigit, ?_,
        notAhead_dropWhile _ _⟩
      rw [Exponent.text, List.cons_append, List.append_assoc, ← hd]
    · exact .inl (hnone (by simp [hb]))
  · exact .inl (by simp [exponentPart, hm])

theorem exponentPart_takes (text : Bytes) :
    ∃ taken, text = taken ++ (exponentPart text).2 ∧
      exponentPart taken = ((exponentPart text).1, []) := by
  rcases exponentPart_cases text with h | ⟨e, rest, rfl, hr⟩
  · exact ⟨[], by rw [h]; rfl, by rw [h]; rfl⟩
  · rw [exponentPart_text e hr]
    exact ⟨e.text, rfl, exponentPart_textOf (some e)⟩

theorem exponentPart_suffix (text : Bytes) : (exponentPart text).2 <:+ text := by
  obtain ⟨taken, h, -⟩ := exponentPart_takes text
  exact ⟨taken, h.symm⟩

theorem exponentPart_reaches {taken : Bytes} (h : (exponentPart taken).2 = []) (more : Bytes) :
    (exponentPart (taken ++ more)).2 <:+ more := by
  rcases exponentPart_cases taken with h0 | ⟨e, rest, rfl, hr⟩
  · obtain rfl : taken = [] := by simpa [h0] using h
    exact exponentPart_suffix more
  · rw [exponentPart_text e hr] at h
    obtain rfl : rest = [] := h
    have htext : e.text ++ [] ++ more =
        (e.extend _ (isDigit_takeWhile more)).text ++ more.dropWhile Byte.isDigit := by
      rw [Exponent.text_extend, List.append_nil, List.append_assoc, List.takeWhile_append_dropWhile]
    rw [htext, exponentPart_text _ (notAhead_dropWhile _ _)]
    exact List.dropWhile_suffix _

theorem exists_mantissa {negative : Bool} {text : Bytes} {r : Recognised} {rest : Bytes}
    (h : digitsPart negative text = some (r, rest)) :
    ∃ (m : Mantissa) (tail : Bytes), text = m.text ++ tail ∧ m.Ends tail := by
  have hsplit := List.takeWhile_append_dropWhile (p := Byte.isDigit) (l := text)
  simp only [digitsPart] at h
  split at h
  · rename_i more hpoint
    have hne : text.takeWhile Byte.isDigit ++ more.takeWhile Byte.isDigit ≠ [] := fun hnil => by
      obtain ⟨hb, ha⟩ := List.append_eq_nil_iff.1 hnil
      simp [hb, ha] at h
    refine ⟨.pointed _ _ (isDigit_takeWhile text) (isDigit_takeWhile more) hne,
      more.dropWhile Byte.isDigit, ?_, notAhead_dropWhile _ _⟩
    rw [Mantissa.text, List.append_assoc, List.cons_append, List.takeWhile_append_dropWhile,
      ← hpoint, hsplit]
  · rename_i hpoint
    have hne : text.takeWhile Byte.isDigit ≠ [] := fun hnil => by
      simp [hnil] at h
    refine ⟨.whole _ (isDigit_takeWhile text) hne, text.dropWhile Byte.isDigit, hsplit.symm,
      notAhead_dropWhile _ _, fun b hb => ?_⟩
    obtain ⟨more, hmore⟩ := List.head?_eq_some_iff.1 hb
    rw [beq_eq_false_iff_ne]
    rintro rfl
    exact hpoint more hmore

/-- Digits, and the point if it has not come yet, go on into what follows them. -/
theorem Mantissa.exists_longer (m : Mantissa) (more : Bytes) :
    ∃ (m' : Mantissa) (tail : Bytes), m.text ++ more = m'.text ++ tail ∧ m'.Ends tail ∧
      tail <:+ more := by
  have isDigit_append {run : Bytes} (h : ∀ b ∈ run, Byte.isDigit b = true) (text : Bytes) :
      ∀ b ∈ run ++ text.takeWhile Byte.isDigit, Byte.isDigit b = true := fun b hb =>
    (List.mem_append.1 hb).elim (h b) (isDigit_takeWhile text b)
  have hsplit (text : Bytes) := List.takeWhile_append_dropWhile (p := Byte.isDigit) (l := text)
  have hdrop (text : Bytes) : text.dropWhile Byte.isDigit <:+ text := List.dropWhile_suffix _
  cases m with
  | whole before hb hne =>
    by_cases hp : NotAhead (· == Byte.point) (more.dropWhile Byte.isDigit)
    · refine ⟨.whole _ (isDigit_append hb more) (by simp [hne]), _, ?_,
        ⟨notAhead_dropWhile _ more, hp⟩, hdrop more⟩
      rw [text, text, List.append_assoc, hsplit]
    · obtain ⟨tail, ht⟩ : ∃ tail, more.dropWhile Byte.isDigit = Byte.point :: tail := by
        simp only [NotAhead, not_forall] at hp
        obtain ⟨b, hb, hpoint⟩ := hp
        obtain rfl : b = Byte.point := by simpa using hpoint
        exact List.head?_eq_some_iff.1 hb
      have htail : tail <:+ more := (List.suffix_cons Byte.point tail).trans (ht ▸ hdrop more)
      refine ⟨.pointed _ _ (isDigit_append hb more) (isDigit_takeWhile tail) (by simp [hne]), _, ?_,
        notAhead_dropWhile _ tail, (hdrop tail).trans htail⟩
      rw [text, text, List.append_assoc, List.append_assoc, List.cons_append, hsplit, ← ht, hsplit]
  | pointed before after hb ha hne =>
    have hne' : before ++ (after ++ more.takeWhile Byte.isDigit) ≠ [] := by
      rw [← List.append_assoc]
      exact List.append_ne_nil_of_left_ne_nil hne _
    refine ⟨.pointed _ _ hb (isDigit_append ha more) hne', _, ?_, notAhead_dropWhile _ more,
      hdrop more⟩
    rw [text, text, List.append_assoc, List.append_assoc, List.cons_append, List.cons_append,
      List.append_assoc, hsplit]

theorem greedy_digitsPart (negative : Bool) : Greedy (digitsPart negative) := by
  constructor
  · intro text r rest h
    obtain ⟨m, tail, rfl, hends⟩ := exists_mantissa h
    rw [digitsPart_mantissa negative hends] at h
    obtain ⟨rfl, rfl⟩ := by simpa using h
    obtain ⟨taken, htail, he⟩ := exponentPart_takes tail
    rw [htail] at hends
    refine ⟨m.text ++ taken, by rw [List.append_assoc, ← htail], ?_⟩
    rw [digitsPart_mantissa negative hends.of_append, he]
  · intro taken r h more
    obtain ⟨m, tail, rfl, hends⟩ := exists_mantissa h
    rw [digitsPart_mantissa negative hends] at h
    have hnil : (exponentPart tail).2 = [] := by simpa using congrArg (Option.map Prod.snd) h
    -- only with nothing behind the mantissa can the mantissa itself go on
    rcases eq_or_ne tail [] with rfl | hne
    · obtain ⟨m', tail', ht, hends', hs⟩ := m.exists_longer more
      have hlong := digitsPart_mantissa negative hends'
      rw [← ht] at hlong
      rw [List.append_nil]
      exact ⟨_, _, hlong, (exponentPart_suffix tail').trans hs⟩
    · have hlong := digitsPart_mantissa negative (hends.append hne more)
      rw [List.append_assoc]
      exact ⟨_, _, hlong, exponentPart_reaches hnil more⟩

theorem afterWord?_append {word w : Bytes} (hw : w.map lowerCase = word) (rest : Bytes) :
    afterWord? word (w ++ rest) = some rest := by
  have hlength : word.length = w.length := by rw [← hw, List.length_map]
  rw [afterWord?, hlength, List.take_left, List.drop_left, if_pos (by rw [hw, beq_self_eq_true])]

theorem exists_word {word text rest : Bytes} (h : afterWord? word text = some rest) :
    ∃ w, w.map lowerCase = word ∧ text = w ++ rest := by
  rw [afterWord?] at h
  split_ifs at h with hw
  cases h
  exact ⟨text.take word.length, by simpa using hw, (List.take_append_drop _ _).symm⟩

def Optional (tail : Bytes → Bytes) : Prop :=
  ∀ text, tail text = text ∨ ∃ part rest, text = part ++ rest ∧ ∀ more, tail (part ++ more) = more

theorem optional_afterTag : Optional afterTag := by
  intro text
  fun_cases afterTag text with
  | case1 rest more hmore =>
    have hsplit := List.takeWhile_append_dropWhile (p := isWordByte) (l := rest)
    have hrun : ∀ b ∈ rest.takeWhile isWordByte, isWordByte b = true := fun b hb =>
      List.mem_takeWhile_imp hb
    have hclose (more : Bytes) : NotAhead isWordByte (0x29 :: more) := by
      simp [NotAhead, (by decide : isWordByte 0x29 = false)]
    refine .inr ⟨0x28 :: (rest.takeWhile isWordByte ++ [0x29]), more, ?_, fun more => ?_⟩
    · rw [List.cons_append, List.append_assoc, List.singleton_append, ← hmore, hsplit]
    · rw [List.cons_append, List.append_assoc, List.singleton_append]
      simp only [afterTag, dropWhile_append_notAhead hrun (hclose more)]
  | case2 => exact .inl rfl
  | case3 => exact .inl rfl

theorem optional_word (word : Bytes) : Optional fun text => (afterWord? word text).getD text := by
  intro text
  cases h : afterWord? word text with
  | none => exact .inl (by simp [h])
  | some rest =>
    obtain ⟨w, hw, rfl⟩ := exists_word h
    exact .inr ⟨w, rest, rfl, fun more => by simp [afterWord?_append hw more]⟩

theorem Optional.suffix {tail : Bytes → Bytes} (h : Optional tail) (text : Bytes) :
    tail text <:+ text := by
  rcases h text with h | ⟨part, rest, rfl, h⟩
  · rw [h]
  · rw [h]
    exact List.suffix_append part rest

theorem Optional.takes {tail : Bytes → Bytes} (h : Optional tail) (text : Bytes) :
    ∃ taken, text = taken ++ tail text ∧ tail taken = [] := by
  rcases h text with ht | ⟨part, rest, rfl, ht⟩
  · exact ⟨[], ht.symm, List.suffix_nil.1 (h.suffix [])⟩
  · exact ⟨part, by rw [ht], by simpa using ht []⟩

theorem Optional.reaches {tail : Bytes → Bytes} (h : Optional tail) {taken : Bytes}
    (hnil : tail taken = []) (more : Bytes) : tail (taken ++ more) <:+ more := by
  rcases h taken with ht | ⟨part, rest, rfl, ht⟩
  · obtain rfl : taken = [] := ht.symm.trans hnil
    exact h.suffix more
  · obtain rfl : rest = [] := (ht rest).symm.trans hnil
    rw [List.append_nil, ht]

def IsName (w : Bytes) : Prop :=
  w.map lowerCase = Bytes.ascii "nan" ∨ w.map lowerCase = Bytes.ascii "inf"

theorem IsName.namedPart {w : Bytes} (hw : IsName w) (negative : Bool) :
    ∃ x tail, Optional tail ∧ ∀ rest, namedPart negative (w ++ rest) = some (.named x, tail rest) := by
  rcases hw with hw | hw
  · exact ⟨if negative then nan.neg else nan, _, optional_afterTag, fun rest => by
      simp only [Binary64.namedPart, afterWord?_append hw]⟩
  · refine ⟨infinity negative, _, optional_word (Bytes.ascii "inity"), fun rest => ?_⟩
    have hnan : afterWord? (Bytes.ascii "nan") (w ++ rest) = none := by
      have hlength : w.length = (Bytes.ascii "nan").length := by
        rw [← List.length_map (f := lowerCase), hw]
        rfl
      rw [afterWord?, ← hlength, List.take_left, hw]
      exact if_neg (by decide)
    simp only [Binary64.namedPart, hnan, afterWord?_append hw]

theorem exists_name {negative : Bool} {text rest : Bytes} {r : Recognised}
    (h : namedPart negative text = some (r, rest)) : ∃ w tail, IsName w ∧ text = w ++ tail := by
  rw [namedPart] at h
  split at h
  · rename_i tail hnan
    obtain ⟨w, hw, rfl⟩ := exists_word hnan
    exact ⟨w, tail, .inl hw, rfl⟩
  · split at h
    · rename_i tail hinf
      obtain ⟨w, hw, rfl⟩ := exists_word hinf
      exact ⟨w, tail, .inr hw, rfl⟩
    · cases h

theorem greedy_namedPart (negative : Bool) : Greedy (namedPart negative) := by
  constructor
  · intro text r rest h
    obtain ⟨w, tail, hw, rfl⟩ := exists_name h
    obtain ⟨x, f, hf, hx⟩ := hw.namedPart negative
    rw [hx] at h
    obtain ⟨rfl, rfl⟩ := by simpa using h
    obtain ⟨taken, ht, hnil⟩ := hf.takes tail
    exact ⟨w ++ taken, by rw [List.append_assoc, ← ht], by rw [hx, hnil]⟩
  · intro taken r h more
    obtain ⟨w, tail, hw, rfl⟩ := exists_name h
    obtain ⟨x, f, hf, hx⟩ := hw.namedPart negative
    rw [hx] at h
    have hnil : f tail = [] := by simpa using congrArg (Option.map Prod.snd) h
    rw [List.append_assoc]
    exact ⟨_, _, hx _, hf.reaches hnil more⟩

theorem Mantissa.exists_head (m : Mantissa) :
    ∃ b more, m.text = b :: more ∧ (Byte.isDigit b = true ∨ b = Byte.point) := by
  cases m with
  | whole before hb hne =>
    obtain ⟨b, more, rfl⟩ := List.exists_cons_of_ne_nil hne
    exact ⟨b, more, rfl, .inl (hb b List.mem_cons_self)⟩
  | pointed before after hb _ _ =>
    cases before with
    | nil => exact ⟨_, _, rfl, .inr rfl⟩
    | cons b before => exact ⟨_, _, rfl, .inl (hb b List.mem_cons_self)⟩

/-- No numeral starts both with a digit or a point and with a letter. -/
theorem digitsPart_name {w : Bytes} (hw : IsName w) (negative : Bool) (rest : Bytes) :
    digitsPart negative (w ++ rest) = none := by
  by_contra hne
  obtain ⟨⟨r, rest'⟩, h⟩ := Option.ne_none_iff_exists'.1 hne
  obtain ⟨m, tail, htext, -⟩ := exists_mantissa h
  obtain ⟨b, more, hm, hb⟩ := m.exists_head
  obtain ⟨c, w, rfl⟩ : ∃ c w', w = c :: w' := by
    refine List.exists_cons_of_ne_nil ?_
    rintro rfl
    rcases hw with hw | hw <;> cases hw
  -- the same byte would have to be a letter and not one
  obtain rfl : c = b := by
    rw [hm] at htext
    exact (List.cons.inj htext).1
  have hletter : lowerCase c = 0x6E ∨ lowerCase c = 0x69 :=
    hw.imp (fun h => (List.cons.inj h).1) fun h => (List.cons.inj h).1
  have hlower : lowerCase c = c := by
    rcases hb with hb | rfl
    · simp only [Byte.isDigit, Bool.and_eq_true, decide_eq_true_eq] at hb
      have hlow : ¬ 0x41 ≤ c := by
        rw [UInt8.not_le]
        exact UInt8.lt_of_le_of_lt hb.2 (by decide)
      simp [lowerCase, hlow]
    · decide
  rw [hlower] at hletter
  rcases hletter with rfl | rfl <;> rcases hb with hb | hb <;> revert hb <;> decide

theorem greedy_orElse {α : Type} {f g : Bytes → Option (α × Bytes)} (hf : Greedy f)
    (hg : Greedy g) (hfg : ∀ text, g text ≠ none → f text = none) :
    Greedy fun text => (f text).orElse fun _ => g text := by
  have hright {text : Bytes} {out : α × Bytes} (h : g text = some out) :
      ((f text).orElse fun _ => g text) = some out := by
    rw [hfg text (by simp [h]), Option.orElse_none, h]
  constructor
  · intro text a rest h
    cases hl : f text with
    | some out =>
      obtain rfl : out = (a, rest) := by simpa [hl] using h
      obtain ⟨taken, ht, hs⟩ := hf.takes hl
      exact ⟨taken, ht, by simp [hs]⟩
    | none =>
      obtain ⟨taken, ht, hs⟩ := hg.takes (by simpa [hl] using h)
      exact ⟨taken, ht, hright hs⟩
  · intro taken a h more
    cases hl : f taken with
    | some out =>
      obtain rfl : out = (a, []) := by simpa [hl] using h
      obtain ⟨b, rest, hb, hs⟩ := hf.reaches hl more
      exact ⟨b, rest, by simp [hb], hs⟩
    | none =>
      obtain ⟨b, rest, hb, hs⟩ := hg.reaches (by simpa [hl] using h) more
      exact ⟨b, rest, hright hb, hs⟩

theorem greedy_unsigned (negative : Bool) :
    Greedy fun text => (digitsPart negative text).orElse fun _ => namedPart negative text := by
  refine greedy_orElse (greedy_digitsPart negative) (greedy_namedPart negative) fun text h => ?_
  obtain ⟨⟨r, rest⟩, h⟩ := Option.ne_none_iff_exists'.1 h
  obtain ⟨w, tail, hw, rfl⟩ := exists_name h
  exact digitsPart_name hw negative tail

theorem greedy_recognise : Greedy recognise := by
  constructor
  · intro text r rest h
    rcases text with _ | ⟨b, text⟩
    · cases h
    by_cases hb : b = Byte.minus
    · subst hb
      rw [recognise_minus] at h
      obtain ⟨taken, rfl, hs⟩ := (greedy_unsigned true).takes h
      exact ⟨Byte.minus :: taken, rfl, (recognise_minus taken).trans hs⟩
    · rw [recognise_cons hb] at h
      obtain ⟨taken, ht, hs⟩ := (greedy_unsigned false).takes h
      rcases taken with _ | ⟨c, taken⟩
      · cases hs
      · obtain ⟨rfl, rfl⟩ := List.cons.inj ht
        exact ⟨b :: taken, rfl, (recognise_cons hb taken).trans hs⟩
  · intro taken r h more
    rcases taken with _ | ⟨b, taken⟩
    · cases h
    by_cases hb : b = Byte.minus
    · subst hb
      rw [recognise_minus] at h
      rw [List.cons_append, recognise_minus]
      exact (greedy_unsigned true).reaches h more
    · rw [recognise_cons hb] at h
      rw [List.cons_append, recognise_cons hb]
      exact (greedy_unsigned false).reaches h more

/-- A text starts with a numeral, and with none that is longer. -/
structure Leads (text taken : Bytes) (r : Recognised) (rest : Bytes) : Prop where
  text_eq : text = taken ++ rest
  whole : recognise taken = some (r, [])
  longest : ∀ longer, longer <+: text → ∀ r', recognise longer = some (r', []) → longer <+: taken

theorem recognise_iff {text rest : Bytes} {r : Recognised} :
    recognise text = some (r, rest) ↔ ∃ taken, Leads text taken r rest := by
  constructor
  · intro h
    obtain ⟨taken, rfl, hs⟩ := greedy_recognise.takes h
    refine ⟨taken, rfl, hs, fun longer hprefix r' h' => ?_⟩
    obtain ⟨more, hmore⟩ := hprefix
    obtain ⟨r'', rest', h'', hsuffix⟩ := greedy_recognise.reaches h' more
    rw [hmore, h] at h''
    obtain ⟨rfl, rfl⟩ : r = r'' ∧ rest = rest' := by simpa using h''
    obtain ⟨between, rfl⟩ := hsuffix
    rw [← List.append_assoc, List.append_cancel_right_eq] at hmore
    exact ⟨between, hmore⟩
  · rintro ⟨taken, rfl, hs, hlongest⟩
    obtain ⟨r', rest', h, hsuffix⟩ := greedy_recognise.reaches hs rest
    obtain ⟨taken', htext, hs'⟩ := greedy_recognise.takes h
    have hprefix := hlongest taken' ⟨rest', htext.symm⟩ r' hs'
    -- what is taken is no shorter than a numeral, and no longer than the longest
    have hlength := congrArg List.length htext
    have hrest := hsuffix.length_le
    have htaken := hprefix.length_le
    rw [List.length_append, List.length_append] at hlength
    obtain rfl := hprefix.eq_of_length (by omega)
    obtain rfl := List.append_cancel_left htext
    rw [hs] at hs'
    cases hs'
    exact h

end Binary64
end JsonCodec
