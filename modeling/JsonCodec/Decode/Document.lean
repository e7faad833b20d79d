import JsonCodec.Decode.Reader

set_option autoImplicit false

namespace JsonCodec

inductive Source where
  | bytes (text : Bytes)
  | absent (size : Nat)
deriving DecidableEq, Repr

def DecodeError.ofFault (text rest : Bytes) (fault : Fault) : DecodeError :=
  ⟨fault, locate text (text.length - rest.length)⟩

def Source.read (o : DecodeOptions) : Source → Except DecodeError Bytes
  | absent 0 => .ok []
  | absent (_ + 1) => .error ⟨.missingInput, Location.start⟩
  | bytes text =>
    let rest := Utf8.illFormed text
    if o.validateUtf8 && !rest.isEmpty then .error (DecodeError.ofFault text rest .invalidUtf8)
    else .ok text

abbrev Decoding (α : Type) := Except DecodeError α × KeyCache

structure Series where
  values : List Value
  error : Option DecodeError
  cache : KeyCache

namespace Decode

variable {α : Type}

/-- The value of the three shortest texts of a string or container. -/
def shortLiteral? : Bytes → Option Value
  | [a, b] =>
    if a = Byte.openBracket && b = Byte.closeBracket then some (.array [])
    else if a = Byte.openBrace && b = Byte.closeBrace then some (.object Object.empty)
    else if a = Byte.quote && b = Byte.quote then some (.string [])
    else none
  | _ => none

def run (text : Bytes) (reader : Reader α) (part : Bytes) (cache : KeyCache) :
    Except DecodeError (α × Bytes) × KeyCache :=
  match reader ⟨part, cache⟩ with
  | .ok a cursor => (.ok (a, cursor.rest), cursor.keys)
  | .error fault cursor => (.error (DecodeError.ofFault text cursor.rest fault), cursor.keys)

def whole (o : DecodeOptions) (source : Source) (cache : KeyCache) : Decoding Parsed :=
  match source.read o with
  | .error e => (.error e, cache)
  | .ok text =>
    match shortLiteral? text with
    | some value => (.ok { value }, cache)
    | none =>
      let (result, cache) := run text (Reader.document o) text cache
      (result.map Prod.fst, cache)

def first (o : DecodeOptions) (source : Source) (cache : KeyCache) : Decoding (Parsed × Nat) :=
  match source.read o with
  | .error e => (.error e, cache)
  | .ok text =>
    let (result, cache) := run text (Reader.leadingValue o) text cache
    (result.map fun (parsed, rest) => (parsed, text.length - rest.length), cache)

def seriesFrom (o : DecodeOptions) (text : Bytes) : Nat → Bytes → KeyCache → Series
  | 0, _, cache => ⟨[], none, cache⟩
  | fuel + 1, part, cache =>
    let part := part.dropWhile Byte.isSpace
    if part.isEmpty then ⟨[], none, cache⟩
    else
      match run text (Reader.leadingValue o) part cache with
      | (.error e, cache) => ⟨[], some e, cache⟩
      | (.ok (parsed, rest), cache) =>
        let series := seriesFrom o text fuel rest cache
        { series with values := parsed.value :: series.values }

def series (o : DecodeOptions) (source : Source) (cache : KeyCache) : Series :=
  match source.read o with
  | .error e => ⟨[], some e, cache⟩
  | .ok text => seriesFrom o text (text.length + 1) text cache

def code (d : Decoding α) : ErrorCode :=
  match d.1 with
  | .ok _ => .success
  | .error e => e.code

def getD (d : Decoding α) (substitute : α) : α :=
  match d.1 with
  | .ok a => a
  | .error _ => substitute

end Decode

/-- The keys of the members of a value. An object that does not stand in the text, but was built
for a big integer, has keys of its own. -/
def Parsed.memberKeys (p : Parsed) (cache : KeyCache) : List Key × KeyCache :=
  match p.keys, p.value with
  | some keys, _ => (keys, cache)
  | none, .object members => cache.makeAll members.keys
  | none, _ => ([], cache)

end JsonCodec
