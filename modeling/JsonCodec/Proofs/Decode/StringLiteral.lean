import Mathlib
import JsonCodec.Proofs.Runs
import JsonCodec.Proofs.Grammar.Token

set_option autoImplicit false

namespace JsonCodec.StringLiteral
open Grammar Runs

theorem hexGroup_cons (a b c d : UInt8) (rest : Bytes) :
    hexGroup (a :: b :: c :: d :: rest) =
      match Byte.hexValue? a, Byte.hexValue? b, Byte.hexValue? c, Byte.hexValue? d with
      | some a, some b, some c, some d => .ok (((a * 16 + b) * 16 + c) * 16 + d) rest
      | _, _, _, _ => .error .invalidHexDigit (a :: b :: c :: d :: rest) := by
  simp only [hexGroup, bind_run, get_run]
  cases Byte.hexValue? a <;> cases Byte.hexValue? b <;> cases Byte.hexValue? c <;>
    cases Byte.hexValue? d <;> rfl

theorem hexGroup_run (g : HexGroup) (rest : Bytes) :
    hexGroup (g.text ++ rest) = .ok g.value rest := by
  obtain ⟨a, ha⟩ := Option.isSome_iff_exists.1 (g.isHex g.a (by simp))
  obtain ⟨b, hb⟩ := Option.isSome_iff_exists.1 (g.isHex g.b (by simp))
  obtain ⟨c, hc⟩ := Option.isSome_iff_exists.1 (g.isHex g.c (by simp))
  obtain ⟨d, hd⟩ := Option.isSome_iff_exists.1 (g.isHex g.d (by simp))
  simp [HexGroup.text, hexGroup_cons, HexGroup.value, HexGroup.digitValue, ha, hb, hc, hd]

theorem hexGroup_eq_ok {text rest : Bytes} {n : Nat} (h : hexGroup text = .ok n rest) :
    ∃ g : HexGroup, text = g.text ++ rest ∧ n = g.value := by
  rcases text with _ | ⟨a, _ | ⟨b, _ | ⟨c, _ | ⟨d, tail⟩⟩⟩⟩
  · cases h
  · cases h
  · cases h
  · cases h
  · rw [hexGroup_cons] at h
    split at h
    · rename_i ha hb hc hd
      obtain ⟨rfl, rfl⟩ := EStateM.Result.ok.inj h
      exact ⟨⟨a, b, c, d, by simp [ha, hb, hc, hd]⟩, rfl,
        by simp [HexGroup.value, HexGroup.digitValue, ha, hb, hc, hd]⟩
    · cases h

theorem lowSurrogate_run (g : HexGroup) (h : isLowSurrogate g.value = true) (rest : Bytes) :
    lowSurrogate ((Piece.unit g).text ++ rest) = .ok g.value rest := by
  change (hexGroup >>= _) (g.text ++ rest) = _
  simp [bind_run, hexGroup_run, h]

theorem lowSurrogate_missing {text : Bytes}
    (h : ¬ ∃ rest, text = Byte.backslash :: 0x75 :: rest) :
    lowSurrogate text = .error .missingLowSurrogate text := by
  simp only [lowSurrogate, bind_run, get_run]
  split
  · rename_i rest
    exact absurd ⟨rest, rfl⟩ h
  · rfl

theorem lowSurrogate_eq_ok {text rest : Bytes} {n : Nat} (h : lowSurrogate text = .ok n rest) :
    ∃ g : HexGroup, text = (Piece.unit g).text ++ rest ∧ n = g.value ∧
      isLowSurrogate g.value = true := by
  simp only [lowSurrogate, bind_run, get_run] at h
  split at h
  · rename_i tail
    simp only [bind_run, set_run] at h
    cases hg : hexGroup tail with
    | error e s => simp [hg] at h
    | ok m s =>
      obtain ⟨g, rfl, rfl⟩ := hexGroup_eq_ok hg
      cases hl : isLowSurrogate g.value with
      | false => simp [hg, hl] at h
      | true =>
        simp only [hg, hl, ↓reduceIte, pure_run, EStateM.Result.ok.injEq] at h
        exact ⟨g, by simp [Piece.text, h.2], h.1.symm, hl⟩
  · cases h

theorem codePoint_lone (g : HexGroup) (hh : isHighSurrogate g.value = false)
    (hl : isLowSurrogate g.value = false) (rest : Bytes) :
    codePoint (g.text ++ rest) = .ok g.value rest := by
  simp [codePoint, bind_run, hexGroup_run, hh, hl]

theorem codePoint_pair (g l : HexGroup) (hh : isHighSurrogate g.value = true)
    (hl : isLowSurrogate l.value = true) (rest : Bytes) :
    codePoint (g.text ++ ((Piece.unit l).text ++ rest)) =
      .ok (joinSurrogates g.value l.value) rest := by
  simp only [codePoint, bind_run, hexGroup_run, hh, ↓reduceIte, lowSurrogate_run l hl, pure_run]

theorem codePoint_eq_ok {text rest : Bytes} {n : Nat} (h : codePoint text = .ok n rest) :
    (∃ g : HexGroup, text = g.text ++ rest ∧ n = g.value ∧ isHighSurrogate g.value = false ∧
        isLowSurrogate g.value = false) ∨
      ∃ g l : HexGroup, text = g.text ++ ((Piece.unit l).text ++ rest) ∧
        n = joinSurrogates g.value l.value ∧ isHighSurrogate g.value = true ∧
        isLowSurrogate l.value = true := by
  obtain ⟨m, s, hg, h⟩ := bind_eq_ok.1 h
  obtain ⟨g, rfl, rfl⟩ := hexGroup_eq_ok hg
  cases hh : isHighSurrogate g.value with
  | true =>
    simp only [hh, ↓reduceIte] at h
    obtain ⟨m, s', hl, h⟩ := bind_eq_ok.1 h
    obtain ⟨l, rfl, rfl, hlow⟩ := lowSurrogate_eq_ok hl
    obtain ⟨rfl, rfl⟩ := EStateM.Result.ok.inj h
    exact .inr ⟨g, l, rfl, rfl, hh, hlow⟩
  | false =>
    cases hl : isLowSurrogate g.value with
    | true => simp [hh, hl] at h
    | false =>
      simp only [hh, hl, Bool.false_eq_true, ↓reduceIte, pure_run, EStateM.Result.ok.injEq] at h
      exact .inl ⟨g, by rw [h.2], h.1.symm, hh, hl⟩

theorem escape_short {letter b : UInt8} (h : escaped? letter = some b) (rest : Bytes) :
    escape (letter :: rest) = .ok [b] rest := by
  simp only [escape, bind_run, get_run, h, set_run, pure_run]

theorem escape_unknown {letter : UInt8} (h : escaped? letter = none) (hu : letter ≠ 0x75)
    (rest : Bytes) : escape (letter :: rest) = .error (.unknownEscape letter) (letter :: rest) := by
  simp [escape, bind_run, h, hu]

theorem escape_unit (text : Bytes) :
    escape (0x75 :: text) = match codePoint text with
      | .ok n rest => .ok (Utf8.encode n) rest
      | .error fault rest => .error fault rest := by
  change (codePoint >>= fun n => pure (Utf8.encode n)) text = _
  rw [bind_run]
  cases codePoint text <;> rfl

theorem escape_eq_ok {text rest : Bytes} {bytes : Bytes} (h : escape text = .ok bytes rest) :
    (∃ letter b, escaped? letter = some b ∧ text = letter :: rest ∧ bytes = [b]) ∨
      ∃ n tail, text = 0x75 :: tail ∧ codePoint tail = .ok n rest ∧ bytes = Utf8.encode n := by
  rcases text with _ | ⟨letter, tail⟩
  · cases h
  · cases he : escaped? letter with
    | some b =>
      rw [escape_short he] at h
      obtain ⟨rfl, rfl⟩ := EStateM.Result.ok.inj h
      exact .inl ⟨letter, b, he, rfl, rfl⟩
    | none =>
      by_cases hu : letter = 0x75
      · subst hu
        rw [escape_unit] at h
        cases hc : codePoint tail with
        | error e s => simp [hc] at h
        | ok n s =>
          simp only [hc, EStateM.Result.ok.injEq] at h
          exact .inr ⟨n, tail, rfl, by rw [hc, h.2], h.1.symm⟩
      · simp [escape, bind_run, he, hu] at h

theorem pieces_succ (fuel : Nat) (text : Bytes) :
    pieces (fuel + 1) text = match text.dropWhile isPlain with
      | [] => .error .unterminatedString []
      | b :: rest =>
        if b = Byte.quote then .ok (text.takeWhile isPlain) rest
        else if b = Byte.backslash then
          match escape rest with
          | .error fault rest => .error fault rest
          | .ok spelled rest =>
            match pieces fuel rest with
            | .error fault rest => .error fault rest
            | .ok more rest => .ok (text.takeWhile isPlain ++ spelled ++ more) rest
        else .error .controlByte (b :: rest) := by
  simp only [pieces, bind_run, get_run, set_run]
  cases text.dropWhile isPlain with
  | nil => rfl
  | cons b rest =>
    by_cases hq : b = Byte.quote
    · simp [hq, bind_run]
    · by_cases hb : b = Byte.backslash
      · simp only [if_neg hq, if_pos hb, bind_run, set_run]
        cases escape rest with
        | error e s => rfl
        | ok spelled s =>
          simp only
          cases pieces fuel s <;> rfl
      · simp [hq, hb]

theorem pieces_plain {b : UInt8} (h : isPlain b = true) (fuel : Nat) (text : Bytes) :
    pieces (fuel + 1) (b :: text) = match pieces (fuel + 1) text with
      | .error fault rest => .error fault rest
      | .ok bytes rest => .ok (b :: bytes) rest := by
  simp only [pieces_succ, List.dropWhile_cons_of_pos h, List.takeWhile_cons_of_pos h]
  cases text.dropWhile isPlain with
  | nil => rfl
  | cons c rest =>
    simp only
    split
    · rfl
    · split
      · cases escape rest with
        | error e s => rfl
        | ok spelled s =>
          simp only
          cases pieces fuel s <;> rfl
      · rfl

theorem pieces_quote (fuel : Nat) (rest : Bytes) :
    pieces (fuel + 1) (Byte.quote :: rest) = .ok [] rest := rfl

theorem pieces_backslash (fuel : Nat) (text : Bytes) :
    pieces (fuel + 1) (Byte.backslash :: text) = match escape text with
      | .error fault rest => .error fault rest
      | .ok spelled rest =>
        match pieces fuel rest with
        | .error fault rest => .error fault rest
        | .ok more rest => .ok (spelled ++ more) rest := by
  rw [pieces_succ]
  rfl

/-- A literal without escapes is a case like any other. -/
theorem content_eq_pieces (text : Bytes) : content text = pieces (text.length + 1) text := by
  rw [pieces_succ]
  simp only [content, bind_run, get_run]
  cases h : text.dropWhile isPlain with
  | nil => simp [pieces_succ, h]
  | cons b rest =>
    by_cases hq : b = 34
    · subst hq
      rfl
    · simp [pieces_succ, h, hq]

theorem paired_waiting {ps : List Piece} (h : Piece.Paired true ps) :
    ∃ l rest, ps = .unit l :: rest ∧ isLowSurrogate l.value = true ∧ Piece.Paired false rest := by
  rcases ps with _ | ⟨p, rest⟩
  · simp [Piece.Paired] at h
  · cases p with
    | plain b hb => simp [Piece.Paired] at h
    | short letter b hb => simp [Piece.Paired] at h
    | unit l => exact ⟨l, rest, rfl, h.1, h.2⟩

theorem pieces_join (ps : List Piece) (fuel : Nat) (hf : ps.length ≤ fuel)
    (hp : Piece.Paired false ps) (rest : Bytes) :
    pieces (fuel + 1) (Piece.join ps ++ Byte.quote :: rest) =
      .ok (Piece.spelled none ps) rest := by
  -- a pair of surrogates takes two pieces at once, so the induction is on the length
  induction hn : ps.length using Nat.strong_induction_on generalizing ps fuel with
  | _ n ih =>
  subst hn
  rcases ps with _ | ⟨p, ps⟩
  · exact pieces_quote fuel rest
  cases p with
  | plain b hb =>
    have h := ih ps.length (by simp) ps fuel (by simp at hf; omega) hp rfl
    change pieces (fuel + 1) (b :: (Piece.join ps ++ Byte.quote :: rest)) = _
    rw [pieces_plain hb, h, Piece.spelled]
  | short letter b hb =>
    obtain ⟨fuel, rfl⟩ := Nat.exists_eq_add_of_le' (show 1 ≤ fuel by simp at hf; omega)
    have h := ih ps.length (by simp) ps fuel (by simpa using hf) hp rfl
    change pieces _ (Byte.backslash :: letter :: (Piece.join ps ++ Byte.quote :: rest)) = _
    rw [pieces_backslash, escape_short hb]
    simp only [h, Piece.spelled, List.singleton_append]
  | unit g =>
    obtain ⟨fuel, rfl⟩ := Nat.exists_eq_add_of_le' (show 1 ≤ fuel by simp at hf; omega)
    obtain ⟨hl, hp⟩ := hp
    cases hh : isHighSurrogate g.value with
    | false =>
      rw [hh] at hp
      have h := ih ps.length (by simp) ps fuel (by simpa using hf) hp rfl
      change pieces _ (Byte.backslash :: 0x75 ::
        (g.text ++ (Piece.join ps ++ Byte.quote :: rest))) = _
      rw [pieces_backslash, escape_unit, codePoint_lone g hh hl]
      simp only [h, Piece.spelled, hh, Bool.false_eq_true, ↓reduceIte]
    | true =>
      rw [hh] at hp
      obtain ⟨l, ps, rfl, hlow, hp⟩ := paired_waiting hp
      have h := ih ps.length (by simp) ps fuel (by simp at hf; omega) hp rfl
      change pieces _ (Byte.backslash :: 0x75 ::
        (g.text ++ ((Piece.unit l).text ++ (Piece.join ps ++ Byte.quote :: rest)))) = _
      rw [pieces_backslash, escape_unit, codePoint_pair g l hh hlow]
      simp only [h, Piece.spelled, hh, ↓reduceIte]

theorem length_le_join (ps : List Piece) : ps.length ≤ (Piece.join ps).length := by
  induction ps with
  | nil => simp [Piece.join]
  | cons p ps ih =>
    have hp : 1 ≤ p.text.length := by cases p <;> simp [Piece.text]
    simp only [Piece.join, List.flatMap_cons, List.length_append, List.length_cons] at ih ⊢
    omega

theorem content_join (ps : List Piece) (hp : Piece.Paired false ps) (rest : Bytes) :
    content (Piece.join ps ++ Byte.quote :: rest) = .ok (Piece.spelled none ps) rest := by
  rw [content_eq_pieces]
  refine pieces_join ps _ ?_ hp rest
  have h := length_le_join ps
  rw [List.length_append]
  omega

theorem exists_plain_run (run : Bytes) (h : ∀ b ∈ run, isPlain b = true) (ps : List Piece)
    (hp : Piece.Paired false ps) :
    ∃ qs, Piece.Paired false qs ∧ Piece.join qs = run ++ Piece.join ps ∧
      Piece.spelled none qs = run ++ Piece.spelled none ps := by
  induction run with
  | nil => exact ⟨ps, hp, rfl, rfl⟩
  | cons b run ih =>
    obtain ⟨qs, hq, hj, hs⟩ := ih fun c hc => h c (List.mem_cons_of_mem b hc)
    refine ⟨.plain b (h b List.mem_cons_self) :: qs, hq, ?_, ?_⟩
    · change b :: Piece.join qs = _
      rw [hj, List.cons_append]
    · rw [Piece.spelled, hs, List.cons_append]

theorem exists_escape {text rest spelled : Bytes} (h : escape text = .ok spelled rest)
    (ps : List Piece) (hp : Piece.Paired false ps) {tail : Bytes} (ht : rest = Piece.join ps ++ tail) :
    ∃ qs, Piece.Paired false qs ∧ Byte.backslash :: text = Piece.join qs ++ tail ∧
      Piece.spelled none qs = spelled ++ Piece.spelled none ps := by
  subst ht
  rcases escape_eq_ok h with ⟨letter, b, hb, rfl, rfl⟩ | ⟨n, text, rfl, hc, rfl⟩
  · refine ⟨.short letter b hb :: ps, hp, ?_, ?_⟩
    · simp [Piece.join, Piece.text]
    · simp [Piece.spelled]
  · rcases codePoint_eq_ok hc with ⟨g, rfl, rfl, hh, hl⟩ | ⟨g, l, rfl, hn, hh, hl⟩
    · refine ⟨.unit g :: ps, ⟨hl, by rwa [hh]⟩, ?_, ?_⟩
      · simp [Piece.join, Piece.text]
      · simp only [Piece.spelled, hh, Bool.false_eq_true, ↓reduceIte]
    · have hg : isLowSurrogate g.value = false := by
        simp only [isHighSurrogate, isLowSurrogate, Bool.and_eq_true, Bool.and_eq_false_iff,
          decide_eq_true_eq, decide_eq_false_iff_not] at hh ⊢
        omega
      refine ⟨.unit g :: .unit l :: ps, ?_, ?_, ?_⟩
      · simp only [Piece.Paired, hg, hh, hl, hp, and_self]
      · simp [Piece.join, Piece.text]
      · simp only [Piece.spelled, hh, ↓reduceIte, hn]

theorem pieces_eq_ok {fuel : Nat} {text bytes rest : Bytes}
    (h : pieces fuel text = .ok bytes rest) :
    ∃ ps, Piece.Paired false ps ∧ text = Piece.join ps ++ Byte.quote :: rest ∧
      bytes = Piece.spelled none ps := by
  induction fuel generalizing text bytes with
  | zero => cases h
  | succ fuel ih =>
    rw [pieces_succ] at h
    have hrun : ∀ b ∈ text.takeWhile isPlain, isPlain b = true := fun b hb =>
      List.mem_takeWhile_imp hb
    have htext := List.takeWhile_append_dropWhile (p := isPlain) (l := text)
    cases hd : text.dropWhile isPlain with
    | nil => simp [hd] at h
    | cons b tail =>
      rw [hd] at h htext
      by_cases hq : b = Byte.quote
      · simp only [if_pos hq, EStateM.Result.ok.injEq] at h
        obtain ⟨qs, hp, hj, hs⟩ := exists_plain_run _ hrun [] rfl
        refine ⟨qs, hp, htext.symm.trans ?_, ?_⟩
        · rw [hj, hq, h.2]
          simp [Piece.join]
        · rw [hs, ← h.1]
          simp [Piece.spelled]
      by_cases hb : b = Byte.backslash
      · simp only [if_neg hq, if_pos hb] at h
        cases he : escape tail with
        | error e s => simp [he] at h
        | ok spelled s =>
          cases hm : pieces fuel s with
          | error e s' => simp [he, hm] at h
          | ok more s' =>
            simp only [he, hm, EStateM.Result.ok.injEq] at h
            obtain ⟨rfl, rfl⟩ := h
            obtain ⟨ps, hp, hj, rfl⟩ := ih hm
            obtain ⟨qs, hq', hj', hs'⟩ := exists_escape he ps hp hj
            obtain ⟨rs, hr, hjr, hsr⟩ := exists_plain_run _ hrun qs hq'
            refine ⟨rs, hr, ?_, ?_⟩
            · rw [hjr, List.append_assoc, ← hj', ← hb, htext]
            · rw [hsr, hs', List.append_assoc]
      · simp [hq, hb] at h

theorem content_eq_ok {text bytes rest : Bytes} (h : content text = .ok bytes rest) :
    ∃ ps, Piece.Paired false ps ∧ text = Piece.join ps ++ Byte.quote :: rest ∧
      bytes = Piece.spelled none ps := by
  rw [content_eq_pieces] at h
  exact pieces_eq_ok h

end JsonCodec.StringLiteral
