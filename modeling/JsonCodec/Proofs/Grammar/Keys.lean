import Mathlib
import JsonCodec.Proofs.Grammar.Tree
import JsonCodec.Proofs.Decode.StringLiteral

set_option autoImplicit false

/-!
# The keys of a text

Which string literals of a text are keys, and how many containers are open, is seen from left to
right, byte by byte, without a parser: a key is a literal behind an opening brace, or behind a comma
inside an object. It is complete with its closing quote, whatever becomes of the text behind it.
-/
namespace JsonCodec.Grammar

/-- What one has to know of a text so far: the open containers, the innermost first, and whether a
literal would be a key; inside a literal, also its text so far and whether an escape has just begun. -/
inductive Place where
  | outside (nest : List Container) (atKey : Bool)
  | literal (nest : List Container) (isKey : Bool) (raw : Bytes) (escaped : Bool)

def unescaped (raw : Bytes) : Bytes :=
  match StringLiteral.content (raw ++ [Byte.quote]) with
  | .ok bytes _ => bytes
  | .error _ _ => []

namespace Place

def start : Place := outside [] false

def next : Place → UInt8 → Place
  | outside nest atKey, b =>
    if b = Byte.quote then literal nest atKey [] false
    else if b = Byte.openBrace then outside (.object :: nest) true
    else if b = Byte.openBracket then outside (.array :: nest) false
    else if b = Byte.closeBrace ∨ b = Byte.closeBracket then outside nest.tail false
    else if b = Byte.comma then outside nest (nest.head? == some .object)
    else outside nest atKey
  | literal nest isKey raw escaped, b =>
    if escaped then literal nest isKey (raw ++ [b]) false
    else if b = Byte.quote then outside nest false
    else literal nest isKey (raw ++ [b]) (b == Byte.backslash)

def completed : Place → UInt8 → List Bytes
  | literal _ true raw false, b => if b = Byte.quote then [unescaped raw] else []
  | _, _ => []

def after (p : Place) (text : Bytes) : Place := text.foldl next p

def keys : Place → Bytes → List Bytes
  | _, [] => []
  | p, b :: rest => p.completed b ++ (p.next b).keys rest

def depth : Place → Nat
  | outside nest _ => nest.length
  | literal nest _ _ _ => nest.length

/-- No more containers than a limit are open at any point of a text, its two ends included. -/
def Within (limit : Nat) : Place → Bytes → Prop
  | p, [] => p.depth ≤ limit
  | p, b :: rest => p.depth ≤ limit ∧ Within limit (p.next b) rest

end Place

/-- The keys that are complete in a text, in their order, with those that others repeat. -/
def keyLiterals (text : Bytes) : List Bytes := Place.start.keys text

def openAt (text : Bytes) (k : Nat) : Nat := (Place.start.after (text.take k)).depth

namespace Place

variable {nest : List Container} {limit : Nat}

theorem after_append (p : Place) (a b : Bytes) : p.after (a ++ b) = (p.after a).after b :=
  List.foldl_append

theorem keys_append (p : Place) (a b : Bytes) :
    p.keys (a ++ b) = p.keys a ++ (p.after a).keys b := by
  induction a generalizing p with
  | nil => rfl
  | cons c a ih => rw [List.cons_append, keys, keys, ih, List.append_assoc]; rfl

theorem Within.depth_le {p : Place} {text : Bytes} (h : p.Within limit text) :
    p.depth ≤ limit := by
  cases text with
  | nil => exact h
  | cons b rest => exact h.1

theorem within_append (p : Place) (a b : Bytes) :
    p.Within limit (a ++ b) ↔ p.Within limit a ∧ (p.after a).Within limit b := by
  induction a generalizing p with
  | nil => exact (and_iff_right_of_imp Within.depth_le).symm
  | cons c a ih => exact (and_congr_right' (ih (p.next c))).trans and_assoc.symm

theorem within_iff (p : Place) (text : Bytes) :
    p.Within limit text ↔ ∀ k, (p.after (text.take k)).depth ≤ limit := by
  induction text generalizing p with
  | nil => simp [Within, after]
  | cons b rest ih =>
    rw [Within, ih]
    constructor
    · rintro ⟨hp, hrest⟩ (_ | k)
      · exact hp
      · exact hrest k
    · exact fun h => ⟨h 0, fun k => h (k + 1)⟩

def isStructural (b : UInt8) : Bool :=
  b == Byte.quote || b == Byte.openBrace || b == Byte.openBracket || b == Byte.closeBrace ||
    b == Byte.closeBracket || b == Byte.comma

theorem next_neutral (nest : List Container) (atKey : Bool) {b : UInt8}
    (h : isStructural b = false) :
    (outside nest atKey).next b = outside nest atKey := by
  simp only [isStructural, Bool.or_eq_false_iff, beq_eq_false_iff_ne] at h
  obtain ⟨⟨⟨⟨⟨h₁, h₂⟩, h₃⟩, h₄⟩, h₅⟩, h₆⟩ := h
  rw [next, if_neg h₁, if_neg h₂, if_neg h₃, if_neg (not_or.2 ⟨h₄, h₅⟩), if_neg h₆]

/-- Bytes that open and close nothing leave the place as it is, and complete no key. -/
theorem neutral (nest : List Container) (atKey : Bool) {text : Bytes}
    (h : ∀ b ∈ text, isStructural b = false) :
    (outside nest atKey).after text = outside nest atKey ∧
      (outside nest atKey).keys text = [] := by
  induction text with
  | nil => exact ⟨rfl, rfl⟩
  | cons b text ih =>
    obtain ⟨hafter, hkeys⟩ := ih fun c hc => h c (List.mem_cons_of_mem b hc)
    have hb := next_neutral nest atKey (h b List.mem_cons_self)
    constructor
    · rw [after, List.foldl_cons, hb]
      exact hafter
    · rw [keys, hb, hkeys]
      rfl

theorem within_neutral {atKey : Bool} {text : Bytes} (h : ∀ b ∈ text, isStructural b = false) :
    (outside nest atKey).Within limit text ↔ nest.length ≤ limit := by
  induction text with
  | nil => exact Iff.rfl
  | cons b text ih =>
    rw [Within, next_neutral nest atKey (h b List.mem_cons_self),
      ih fun c hc => h c (List.mem_cons_of_mem b hc)]
    exact and_self_iff

theorem next_comma (c : Container) (atKey : Bool) :
    (outside (c :: nest) atKey).next Byte.comma = outside (c :: nest) (c == .object) := by
  cases c <;> rfl

theorem next_close (c : Container) (atKey : Bool) :
    (outside (c :: nest) atKey).next c.close = outside nest false := by
  cases c <;> rfl

theorem next_opening (c : Container) (atKey : Bool) :
    (outside nest atKey).next (openingByte c) = outside (c :: nest) (c == .object) := by
  cases c <;> rfl

/-- Some bytes do not close the literal they stand in, and open nothing. The flags tell whether an
escape has just begun before and behind them. -/
def StaysOpen (escaped : Bool) (read : Bytes) (escaped' : Bool) : Prop :=
  ∀ nest isKey raw,
    (literal nest isKey raw escaped).after read = literal nest isKey (raw ++ read) escaped' ∧
      (literal nest isKey raw escaped).keys read = [] ∧
      ∀ limit, nest.length ≤ limit → (literal nest isKey raw escaped).Within limit read

namespace StaysOpen

theorem nil (escaped : Bool) : StaysOpen escaped [] escaped :=
  fun _ _ raw => ⟨congrArg (literal _ _ · _) (List.append_nil raw).symm, rfl, fun _ => id⟩

theorem append {e₁ e₂ e₃ : Bool} {a b : Bytes} (ha : StaysOpen e₁ a e₂) (hb : StaysOpen e₂ b e₃) :
    StaysOpen e₁ (a ++ b) e₃ := by
  intro nest isKey raw
  obtain ⟨hafter, hkeys, hwithin⟩ := ha nest isKey raw
  obtain ⟨hafter', hkeys', hwithin'⟩ := hb nest isKey (raw ++ a)
  simp only [after_append, keys_append, within_append, hafter, hkeys, hafter', hkeys',
    List.append_assoc, List.append_nil, true_and]
  exact fun limit hn => ⟨hwithin limit hn, hwithin' limit hn⟩

theorem byte {e e' : Bool} {b : UInt8}
    (h : ∀ nest isKey raw, (literal nest isKey raw e).next b = literal nest isKey (raw ++ [b]) e')
    (hk : ∀ nest isKey raw, (literal nest isKey raw e).completed b = []) :
    StaysOpen e [b] e' := by
  intro nest isKey raw
  refine ⟨h nest isKey raw, ?_, fun limit hn => ⟨hn, ?_⟩⟩
  · rw [keys, hk]
    rfl
  · rw [h]
    exact hn

theorem escaped (b : UInt8) : StaysOpen true [b] false :=
  byte (fun _ _ _ => rfl) fun _ isKey _ => by cases isKey <;> rfl

theorem backslash : StaysOpen false [Byte.backslash] true :=
  byte (fun _ _ _ => rfl) fun _ isKey _ => by cases isKey <;> rfl

theorem ordinary {b : UInt8} (hq : b ≠ Byte.quote) (hb : b ≠ Byte.backslash) :
    StaysOpen false [b] false := by
  have hslash : (b == Byte.backslash) = false := by simpa using hb
  refine byte (fun nest isKey raw => ?_) fun nest isKey raw => ?_
  · simp only [next, if_neg hq, hslash]
    rfl
  · cases isKey with
    | true => simp only [completed, if_neg hq]
    | false => rfl

theorem run {read : Bytes} (h : ∀ b ∈ read, b ≠ Byte.quote ∧ b ≠ Byte.backslash) :
    StaysOpen false read false := by
  induction read with
  | nil => exact nil false
  | cons b read ih =>
    have hb := h b List.mem_cons_self
    exact (ordinary hb.1 hb.2).append (ih fun c hc => h c (List.mem_cons_of_mem b hc))

end StaysOpen

theorem isPlain_spec {b : UInt8} (h : StringLiteral.isPlain b = true) :
    b ≠ Byte.quote ∧ b ≠ Byte.backslash := by
  revert b
  decide +kernel

theorem isHex_spec {b : UInt8} (h : (Byte.hexValue? b).isSome = true) :
    b ≠ Byte.quote ∧ b ≠ Byte.backslash := by
  revert b
  decide +kernel

theorem staysOpen_hex (g : HexGroup) : StaysOpen false g.text false :=
  .run fun b hb => isHex_spec (g.isHex b hb)

theorem staysOpen_piece (p : Piece) : StaysOpen false p.text false := by
  cases p with
  | plain b h =>
    have hb := isPlain_spec h
    exact .ordinary hb.1 hb.2
  | short letter b h => exact StaysOpen.backslash.append (.escaped letter)
  | unit g => exact StaysOpen.backslash.append ((StaysOpen.escaped 0x75).append (staysOpen_hex g))

theorem staysOpen_join (ps : List Piece) : StaysOpen false (Piece.join ps) false := by
  induction ps with
  | nil => exact .nil false
  | cons p ps ih => exact (staysOpen_piece p).append ih

theorem unescaped_join {ps : List Piece} (h : Piece.Paired false ps) :
    unescaped (Piece.join ps) = Piece.spelled none ps := by
  rw [unescaped, StringLiteral.content_join ps h []]

/-- The body of a literal and its closing quote complete a key, if the literal is one. -/
theorem literal_join (nest : List Container) {ps : List Piece} (h : Piece.Paired false ps)
    (isKey : Bool) :
    (literal nest isKey [] false).after (Piece.join ps ++ [Byte.quote]) = outside nest false ∧
      (literal nest isKey [] false).keys (Piece.join ps ++ [Byte.quote]) =
        if isKey then [Piece.spelled none ps] else [] := by
  obtain ⟨hafter, hkeys, -⟩ := staysOpen_join ps nest isKey []
  rw [after_append, keys_append, hafter, hkeys, List.nil_append]
  refine ⟨rfl, ?_⟩
  cases isKey with
  | true => simp [keys, completed, unescaped_join h]
  | false => rfl

theorem within_join (ps : List Piece) (isKey : Bool) :
    (literal nest isKey [] false).Within limit (Piece.join ps ++ [Byte.quote]) ↔
      nest.length ≤ limit := by
  refine ⟨Within.depth_le, fun hn => ?_⟩
  obtain ⟨hafter, -, hwithin⟩ := staysOpen_join ps nest isKey []
  rw [within_append, hafter]
  exact ⟨hwithin limit hn, hn, hn⟩

end Place
end JsonCodec.Grammar
