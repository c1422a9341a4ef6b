import EndlessFS.Format.Domain
import EndlessFS.Lib.Result

/-!
# EndlessFS.Format.Envelope

Canonical envelopes (`storageformat/format.go`, `state/codec.go`). What is stored under a key is an envelope with the
schema, the revision, a version that binds key, revision and payload, and the payload. Decoding accepts a text only if
encoding what it read gives the text again.

* `JsonText`, `RecordJson`: `encoding/json` for envelopes and for one type of records; `Documented` says what its
  documentation promises. Strings are written with every invalid byte replaced (`coerce`).
* `scan`: `scanJSONValue`, on the tokens of a text.
* `encodeEnvelope`, `decodeEnvelope`: the two functions. SHA-256 is a parameter (`Hash`).
* `envelopes_canonical_iff`: accepted texts are the encoder's own, and bound to their key and schema; the encoder's own
  texts are read back exactly if the schema and the strings of the record are valid UTF-8 and the record is valid.
-/

namespace EndlessFS

open Except List

namespace Format

abbrev Text := List UInt8

/-! ## UTF-8 -/

def continuation (b : UInt8) : Bool := 0x80 ≤ b && b ≤ 0xBF

def leading (b : UInt8) : Option (UInt8 × UInt8 × Nat) :=
  if 0xC2 ≤ b && b ≤ 0xDF then some (0x80, 0xBF, 0)
  else if b = 0xE0 then some (0xA0, 0xBF, 1)
  else if b = 0xED then some (0x80, 0x9F, 1)
  else if 0xE1 ≤ b && b ≤ 0xEF then some (0x80, 0xBF, 1)
  else if b = 0xF0 then some (0x90, 0xBF, 2)
  else if 0xF1 ≤ b && b ≤ 0xF3 then some (0x80, 0xBF, 2)
  else if b = 0xF4 then some (0x80, 0x8F, 2)
  else none

def runeTail : Text → Option Nat
  | [] => none
  | b :: rest =>
    if b < 0x80 then some 0
    else
      match leading b, rest with
      | some (low, high, more), second :: rest =>
        if low ≤ second && second ≤ high && more ≤ (rest.takeWhile continuation).length then some (more + 1) else none
      | _, _ => none

/-- `utf8.Valid`, after `skip` more bytes of a character. -/
def utf8Valid : Nat → Text → Bool
  | _, [] => true
  | skip + 1, _ :: rest => utf8Valid skip rest
  | 0, b :: rest =>
    match runeTail (b :: rest) with
    | none => false
    | some tail => utf8Valid tail rest

def replacement : Text := [0xEF, 0xBF, 0xBD]

def coerce : Nat → Text → Text
  | _, [] => []
  | skip + 1, b :: rest => b :: coerce skip rest
  | 0, b :: rest =>
    match runeTail (b :: rest) with
    | none => replacement ++ coerce 0 rest
    | some tail => b :: coerce tail rest

theorem coerce_eq_iff (skip : Nat) (s : Text) : coerce skip s = s ↔ utf8Valid skip s = true := by
  induction s generalizing skip with
  | nil => cases skip <;> simp [coerce, utf8Valid]
  | cons b rest ih =>
    cases skip with
    | succ skip => simp [coerce, utf8Valid, ih]
    | zero =>
      unfold coerce utf8Valid
      cases h : runeTail (b :: rest) with
      | some tail => simp [ih]
      | none =>
        -- the replacement character is valid itself
        simp only [Bool.false_eq_true, iff_false]
        intro heq
        obtain ⟨rfl, hrest⟩ := cons.inj heq
        rw [← hrest] at h
        revert h
        simp [runeTail, leading, continuation]

/-! ## JSON -/

/-- The tokens of a text, up to the first error in it. -/
inductive Token where
  | beginObject
  | endObject
  | beginArray
  | endArray
  | string (text : Text)
  | scalar
  | invalid
  deriving DecidableEq, Repr

/-- Where `scanJSONValue` is: before a value, among the members of an object, or among the elements of an array. -/
inductive Position where
  | value
  | members (seen : List Text)
  | elements

/-- What follows a value; if it is scanned strictly (`scanJSONValue`), no object in it repeats a key. -/
def scan (strict : Bool) : Nat → Position → List Token → Option (List Token)
  | 0, _, _ => none
  | _ + 1, _, [] => none
  | fuel + 1, .value, token :: rest =>
    match token with
    | .beginObject => scan strict fuel (.members []) rest
    | .beginArray => scan strict fuel .elements rest
    | .endObject | .endArray | .invalid => none
    | .string _ | .scalar => some rest
  | fuel + 1, .members seen, token :: rest =>
    match token with
    | .endObject => some rest
    | .string key =>
      if strict && decide (key ∈ seen) then none
      else (scan strict fuel .value rest).bind (scan strict fuel (.members (key :: seen)))
    | _ => none
  | fuel + 1, .elements, token :: rest =>
    match token with
    | .endArray => some rest
    | _ => (scan strict fuel .value (token :: rest)).bind (scan strict fuel .elements)

/-- What follows the scanned tokens does not matter, nor does more fuel. -/
theorem scan_append {strict : Bool} {fuel fuel' : Nat} {position : Position} {tokens rest : List Token}
    (more : List Token) (hfuel : fuel ≤ fuel') (h : scan strict fuel position tokens = some rest) :
    scan strict fuel' position (tokens ++ more) = some (rest ++ more) := by
  induction fuel generalizing fuel' position tokens rest with
  | zero => cases h
  | succ fuel ih =>
    obtain ⟨fuel', rfl⟩ := Nat.exists_eq_succ_of_ne_zero (Nat.ne_of_gt (Nat.lt_of_lt_of_le (Nat.succ_pos fuel) hfuel))
    have hle : fuel ≤ fuel' := Nat.le_of_succ_le_succ hfuel
    have hbind : ∀ {next : Position} {tokens : List Token},
        (scan strict fuel .value tokens).bind (scan strict fuel next) = some rest →
        (scan strict fuel' .value (tokens ++ more)).bind (scan strict fuel' next) = some (rest ++ more) := by
      intro next tokens hseq
      obtain ⟨middle, hvalue, hnext⟩ := Option.bind_eq_some_iff.mp hseq
      exact Option.bind_eq_some_iff.mpr ⟨_, ih hle hvalue, ih hle hnext⟩
    cases tokens with
    | nil => cases position <;> cases h
    | cons token tokens =>
      cases position with
      | value =>
        cases token with
        | beginObject =>
          change scan strict fuel' (.members []) (tokens ++ more) = some (rest ++ more)
          exact ih hle h
        | beginArray =>
          change scan strict fuel' .elements (tokens ++ more) = some (rest ++ more)
          exact ih hle h
        | endObject => cases h
        | endArray => cases h
        | invalid => cases h
        | string text => cases h; rfl
        | scalar => cases h; rfl
      | members seen =>
        cases token with
        | endObject => cases h; rfl
        | string key =>
          simp only [scan, cons_append] at h ⊢
          split_ifs at h ⊢
          exact hbind h
        | _ => cases h
      | elements =>
        cases token with
        | endArray => cases h; rfl
        | _ => exact hbind h

/-- `Envelope`; the payload is a text of its own. -/
structure Envelope (T : Type) where
  schema : Text
  revision : UInt64
  logicalVersion : Text
  payload : T
  deriving DecidableEq

/-- Texts, and how `encoding/json` reads and writes envelopes. -/
structure JsonText (T : Type) where
  length : T → Nat
  valid : T → Bool
  tokens : T → List Token
  encode : Envelope T → T
  decode : T → Option (Envelope T)

/-- How `encoding/json` reads and writes the records of one type, their `Validate`, and the strings in them, keys of
maps included. A record stands for the values that `encoding/json` does not tell apart. -/
structure RecordJson (T Record : Type) where
  encode : Record → Option T
  decode : T → Option Record
  validate : Record → Except Error Unit
  strings : Record → List Text

def RecordJson.Wellformed {T Record : Type} (R : RecordJson T Record) (record : Record) : Prop :=
  (∀ s ∈ R.strings record, utf8Valid 0 s = true) ∧ R.validate record = .ok ()

def OneValue (tokens : List Token) : Prop := scan true (tokens.length + 1) .value tokens = some []

def ascii (s : String) : Text := s.toList.map fun c => c.toNat.toUInt8

def envelopeTokens {T : Type} (e : Envelope T) (payload : List Token) : List Token :=
  [.beginObject, .string (ascii "schema"), .string (coerce 0 e.schema), .string (ascii "revision"), .scalar,
    .string (ascii "logicalVersion"), .string (coerce 0 e.logicalVersion), .string (ascii "payload")]
    ++ (payload ++ [.endObject])

/-- The documented behaviour of `encoding/json`: what it writes is valid UTF-8; a record is read as it was written if
its strings are valid, and strings that are read are valid; an envelope around a record is read as it was written, with
its strings coerced. -/
structure Documented {T Record : Type} (J : JsonText T) (R : RecordJson T Record) : Prop where
  valid_record : ∀ {record text}, R.encode record = some text → J.valid text = true
  decode_record : ∀ {record text}, R.encode record = some text → (∀ s ∈ R.strings record, utf8Valid 0 s = true) →
    OneValue (J.tokens text) ∧ R.decode text = some record
  strings_decoded : ∀ {record text}, R.decode text = some record → ∀ s ∈ R.strings record, utf8Valid 0 s = true
  valid_envelope : ∀ {record} (e : Envelope T), R.encode record = some e.payload → J.valid (J.encode e) = true
  tokens_envelope : ∀ {record} (e : Envelope T), R.encode record = some e.payload →
    J.tokens (J.encode e) = envelopeTokens e (J.tokens e.payload)
  decode_envelope : ∀ {record} (e : Envelope T), R.encode record = some e.payload →
    J.decode (J.encode e) = some { e with schema := coerce 0 e.schema, logicalVersion := coerce 0 e.logicalVersion }

theorem oneValue_envelope {T : Type} (e : Envelope T) {payload : List Token} (h : OneValue payload) :
    OneValue (envelopeTokens e payload) := by
  have hpayload : scan true (payload.length + 5) .value (payload ++ [.endObject]) = some [.endObject] :=
    scan_append [.endObject] (by omega) h
  have hkeys : [ascii "schema", ascii "revision", ascii "logicalVersion", ascii "payload"].Nodup := by decide
  simp only [nodup_cons, mem_cons, not_mem_nil, or_false, not_or] at hkeys
  simp [OneValue, envelopeTokens, scan, hpayload, Ne.symm hkeys.1.1, Ne.symm hkeys.1.2.1, Ne.symm hkeys.1.2.2,
    Ne.symm hkeys.2.1.1, Ne.symm hkeys.2.1.2, Ne.symm hkeys.2.2.1]

/-! ## The functions -/

def maxCanonicalBytes : Nat := 2 ^ 20
def maxKeyBytes : Nat := 240
def maxKeySegments : Nat := 24

/-- The characters of a key: `a` to `z`, `0` to `9`, `-` and `.`. -/
def keyCharacter (b : UInt8) : Bool := (97 ≤ b && b ≤ 122) || (48 ≤ b && b ≤ 57) || b = 45 || b = 46

/-- `Key.Valid`, that is `ParseKey`; segments are separated by `/`. -/
def keyValid (key : Text) : Bool :=
  let segments := key.splitOn 47
  !key.isEmpty && decide (key.length ≤ maxKeyBytes) && key.head? ≠ some 47 && key.getLast? ≠ some 47
    && decide (segments.length ≤ maxKeySegments)
    && segments.all fun segment => segment ≠ [] && segment ≠ [46] && segment ≠ [46, 46] && segment.all keyCharacter

/-- SHA-256 of byte strings and of texts, and the base64 coding of its result. -/
structure Hash (T : Type) where
  sha256 : Text → Text
  digest : T → Text
  base64 : Text → Text

structure Hash.Ideal {T : Type} (H : Hash T) : Prop where
  digest_length : ∀ text, (H.digest text).length = 32
  injective : ∀ a b, H.base64 (H.sha256 a) = H.base64 (H.sha256 b) → a = b
  printable : ∀ a, utf8Valid 0 (H.base64 a) = true
  nonempty : ∀ a, H.base64 a ≠ []

section

variable {T Record : Type} (J : JsonText T) (H : Hash T) (R : RecordJson T Record)

/-- `requireEOF`. -/
def requireEOF : List Token → Except Error Unit
  | [] => .ok ()
  | rest =>
    match scan false (rest.length + 1) .value rest with
    | some _ => .error (newError .invalid "trailing state record content")
    | none => .error (newError .invalid "invalid trailing state record content")

/-- `rejectDuplicateKeys`. -/
def rejectDuplicateKeys (data : T) : Except Error Unit :=
  match scan true ((J.tokens data).length + 1) .value (J.tokens data) with
  | none => .error (newError .invalid "invalid or duplicate state JSON")
  | some rest => requireEOF rest

/-- `DecodeJSONWithLimit`, with the limit of canonical records. Its own `requireEOF` holds after `rejectDuplicateKeys`.
-/
def decodeJSONWithLimit {α : Type} (decode : T → Option α) (validate : α → Except Error Unit) (data : T) :
    Except Error α := do
  rejectIf (decide (J.length data = 0) || decide (maxCanonicalBytes < J.length data))
    (newError .invalid "invalid state record size")
  rejectIf (!J.valid data) (newError .invalid "state record must be valid UTF-8")
  rejectDuplicateKeys J data
  match decode data with
  | none => .error (newError .invalid "invalid state record")
  | some value =>
    validate value
    pure value

/-- The end of `EncodeCanonical`: the size of what was written. -/
def checkSize (data : T) : Except Error T := do
  rejectIf (decide (J.length data = 0) || decide (maxCanonicalBytes < J.length data))
    (newError .invalid "canonical record exceeds size limit")
  pure data

/-- `EncodeCanonical`, of a record. -/
def encodeCanonical (record : Record) : Except Error T :=
  match R.encode record with
  | none => .error (newError .invalid "encode canonical record")
  | some data => checkSize J data

/-- `binary.BigEndian.PutUint64`. -/
def bigEndian (revision : UInt64) : Text :=
  (List.range 8).map fun i => (revision.toNat / 256 ^ (7 - i)).toUInt8

/-- `logicalVersion`. -/
def logicalVersion (key : Text) (revision : UInt64) (payload : T) : Text :=
  H.base64 (H.sha256 (ascii "endlessfs-logical-version-v1" ++ 0 ::
    (key ++ 0 :: (bigEndian revision ++ H.digest payload))))

/-- What `EncodeEnvelope` writes around a payload. -/
def envelopeOf (schema key : Text) (revision : UInt64) (payload : T) : Envelope T :=
  { schema := schema, revision := revision, logicalVersion := logicalVersion H key revision payload,
    payload := payload }

/-- `EncodeEnvelope`. -/
def encodeEnvelope (schema key : Text) (revision : UInt64) (record : Record) : Except Error T := do
  rejectIf (schema.isEmpty || !keyValid key || decide (revision = 0)) (newError .invalid "invalid canonical envelope")
  let payload ← encodeCanonical J R record
  checkSize J (J.encode (envelopeOf H schema key revision payload))

/-- `DecodeEnvelope`. -/
def decodeEnvelope [DecidableEq T] (data : T) (key schema : Text) : Except Error (Envelope T × Record) := do
  rejectIf (!keyValid key || schema.isEmpty) (newError .invalid "invalid canonical envelope destination")
  let envelope ← decodeJSONWithLimit J J.decode (fun _ => .ok ()) data
  rejectIf (envelope.schema ≠ schema || decide (envelope.revision = 0) || envelope.logicalVersion.isEmpty
      || decide (J.length envelope.payload = 0))
    (newError .invalid "invalid canonical envelope fields")
  let record ← decodeJSONWithLimit J R.decode R.validate envelope.payload
  let payload ← encodeCanonical J R record
  rejectIf (payload ≠ envelope.payload)
    (newError .invalid ("non-canonical payload encoding for " ++ String.ofList (key.map fun b => Char.ofNat b.toNat)))
  rejectIf (envelope.logicalVersion ≠ logicalVersion H key envelope.revision payload)
    (newError .invalid "canonical logical version mismatch")
  let canonical ← encodeEnvelope J H R schema key envelope.revision record
  rejectIf (canonical ≠ data) (newError .invalid "non-canonical envelope encoding")
  pure (envelope, record)

/-! ## What they accept -/

def Sized (data : T) : Prop := J.length data ≠ 0 ∧ J.length data ≤ maxCanonicalBytes

variable {J H R} {data : T}

theorem rejectDuplicateKeys_of_oneValue (h : OneValue (J.tokens data)) : rejectDuplicateKeys J data = .ok () := by
  unfold rejectDuplicateKeys
  rw [show scan true ((J.tokens data).length + 1) .value (J.tokens data) = some [] from h]
  rfl

theorem decodeJSONWithLimit_eq_ok_iff {α : Type} {decode : T → Option α} {validate : α → Except Error Unit}
    {value : α} : decodeJSONWithLimit J decode validate data = .ok value ↔
      Sized J data ∧ J.valid data = true ∧ rejectDuplicateKeys J data = .ok () ∧ decode data = some value ∧
        validate value = .ok () := by
  unfold decodeJSONWithLimit Sized
  cases hdecode : decode data with
  | none => simp [bind_eq_ok_iff]
  | some read =>
    simp only [bind_eq_ok_iff, rejectIf_eq_ok_iff, Bool.or_eq_false_iff, decide_eq_false_iff_not, Nat.not_lt,
      Bool.not_eq_false', pure_eq_ok, ok.injEq, Option.some.injEq, exists_const]
    constructor
    · rintro ⟨hsize, hvalid, _, hkeys, _, hvalidate, rfl⟩
      exact ⟨hsize, hvalid, hkeys, rfl, hvalidate⟩
    · rintro ⟨hsize, hvalid, hkeys, rfl, hvalidate⟩
      exact ⟨hsize, hvalid, (), hkeys, (), hvalidate, rfl⟩

theorem checkSize_eq_ok_iff {data' : T} : checkSize J data = .ok data' ↔ Sized J data ∧ data' = data := by
  simp only [checkSize, Sized, bind_eq_ok_iff, rejectIf_eq_ok_iff, Bool.or_eq_false_iff, decide_eq_false_iff_not,
    Nat.not_lt, pure_eq_ok, ok.injEq, exists_const, ne_eq, @eq_comm _ data']

variable {record : Record}

theorem encodeCanonical_eq_ok_iff : encodeCanonical J R record = .ok data ↔ R.encode record = some data ∧
    Sized J data := by
  unfold encodeCanonical
  cases R.encode record with
  | none => simp
  | some written =>
    simp only [checkSize_eq_ok_iff, Option.some.injEq]
    constructor
    · rintro ⟨hsize, rfl⟩
      exact ⟨rfl, hsize⟩
    · rintro ⟨rfl, hsize⟩
      exact ⟨hsize, rfl⟩

variable {revision : UInt64} {key schema : Text}

theorem encodeEnvelope_eq_ok_iff : encodeEnvelope J H R schema key revision record = .ok data ↔
      schema ≠ [] ∧ keyValid key = true ∧ revision ≠ 0 ∧ ∃ payload, encodeCanonical J R record = .ok payload ∧
        Sized J data ∧ data = J.encode (envelopeOf H schema key revision payload) := by
  simp only [encodeEnvelope, bind_eq_ok_iff, rejectIf_eq_ok_iff, checkSize_eq_ok_iff, Bool.or_eq_false_iff,
    isEmpty_eq_false_iff, Bool.not_eq_false', decide_eq_false_iff_not, exists_const]
  constructor
  · rintro ⟨⟨⟨hschema, hkey⟩, hrevision⟩, payload, hpayload, hsize, rfl⟩
    exact ⟨hschema, hkey, hrevision, payload, hpayload, hsize, rfl⟩
  · rintro ⟨hschema, hkey, hrevision, payload, hpayload, hsize, rfl⟩
    exact ⟨⟨⟨hschema, hkey⟩, hrevision⟩, payload, hpayload, hsize, rfl⟩

theorem key_of_logicalVersion (hH : H.Ideal) {key' : Text} {payload payload' : T}
    (h : logicalVersion H key revision payload = logicalVersion H key' revision payload') : key = key' := by
  have hbytes := append_cancel_left (hH.injective _ _ h)
  -- what follows the key has one length
  have hlength := congrArg length hbytes
  simp only [length_cons, length_append, hH.digest_length] at hlength
  exact append_inj_left (cons.inj hbytes).2 (by omega)

variable [DecidableEq T]

theorem decodeEnvelope_eq_ok_iff {e : Envelope T} : decodeEnvelope J H R data key schema = .ok (e, record) ↔
      decodeJSONWithLimit J J.decode (fun _ => .ok ()) data = .ok e ∧ e.schema = schema ∧ e.logicalVersion ≠ [] ∧
        decodeJSONWithLimit J R.decode R.validate e.payload = .ok record ∧ encodeCanonical J R record = .ok e.payload ∧
        e.logicalVersion = logicalVersion H key e.revision e.payload ∧
        encodeEnvelope J H R schema key e.revision record = .ok data := by
  simp only [decodeEnvelope, bind_eq_ok_iff, rejectIf_eq_ok_iff, Bool.or_eq_false_iff, isEmpty_eq_false_iff,
    Bool.not_eq_false', decide_eq_false_iff_not, exists_const, pure_eq_ok, ok.injEq, Prod.mk.injEq, not_not,
    ne_eq]
  constructor
  · rintro ⟨_, _, he, ⟨⟨⟨hschema, _⟩, hversion⟩, _⟩, _, hrecord, _, hpayload, rfl, hbound, _, hencode, rfl, rfl, rfl⟩
    exact ⟨he, hschema, hversion, hrecord, hpayload, hbound, hencode⟩
  · rintro ⟨he, hschema, hversion, hrecord, hpayload, hbound, hencode⟩
    obtain ⟨hne, hkey, hrevision, _⟩ := encodeEnvelope_eq_ok_iff.mp hencode
    exact ⟨⟨hkey, hne⟩, e, he, ⟨⟨⟨hschema, hrevision⟩, hversion⟩, (encodeCanonical_eq_ok_iff.mp hpayload).2.1⟩,
      record, hrecord, e.payload, hpayload, rfl, hbound, data, hencode, rfl, rfl, rfl⟩

theorem decodeEnvelope_of_wellformed (hH : H.Ideal) (hJ : Documented J R)
    (hencode : encodeEnvelope J H R schema key revision record = .ok data) (hschema : utf8Valid 0 schema = true)
    (hrecord : R.Wellformed record) : ∃ e, decodeEnvelope J H R data key schema = .ok (e, record) ∧
      e.revision = revision := by
  obtain ⟨_, _, _, payload, hpayload, hsize, hdata⟩ := encodeEnvelope_eq_ok_iff.mp hencode
  obtain ⟨hwritten, hpayloadSize⟩ := encodeCanonical_eq_ok_iff.mp hpayload
  obtain ⟨hone, hread⟩ := hJ.decode_record hwritten hrecord.1
  let e := envelopeOf H schema key revision payload
  have hkept : J.decode data = some e := by
    rw [hdata, hJ.decode_envelope e hwritten]
    have hs : coerce 0 e.schema = e.schema := (coerce_eq_iff 0 _).mpr hschema
    have hv : coerce 0 e.logicalVersion = e.logicalVersion := (coerce_eq_iff 0 _).mpr (hH.printable _)
    rw [hs, hv]
  have htokens : OneValue (J.tokens data) := by
    rw [hdata, hJ.tokens_envelope e hwritten]
    exact oneValue_envelope e hone
  refine ⟨e, decodeEnvelope_eq_ok_iff.mpr ⟨?_, rfl, hH.nonempty _, ?_, hpayload, rfl, hencode⟩, rfl⟩
  · exact decodeJSONWithLimit_eq_ok_iff.mpr
      ⟨hsize, hdata ▸ hJ.valid_envelope e hwritten, rejectDuplicateKeys_of_oneValue htokens, hkept, rfl⟩
  · exact decodeJSONWithLimit_eq_ok_iff.mpr
      ⟨hpayloadSize, hJ.valid_record hwritten, rejectDuplicateKeys_of_oneValue hone, hread, hrecord.2⟩

theorem wellformed_of_decodeEnvelope (hJ : Documented J R) {e : Envelope T}
    (h : decodeEnvelope J H R data key schema = .ok (e, record)) : utf8Valid 0 schema = true ∧ R.Wellformed record := by
  obtain ⟨he, hschema, _, hrecord, _, _, hencode⟩ := decodeEnvelope_eq_ok_iff.mp h
  obtain ⟨_, _, _, payload, hpayload, _, hdata⟩ := encodeEnvelope_eq_ok_iff.mp hencode
  obtain ⟨_, _, _, hread, hvalidate⟩ := decodeJSONWithLimit_eq_ok_iff.mp hrecord
  obtain ⟨_, _, _, hdecoded, _⟩ := decodeJSONWithLimit_eq_ok_iff.mp he
  refine ⟨(coerce_eq_iff 0 _).mp ?_, hJ.strings_decoded hread, hvalidate⟩
  rw [hdata, hJ.decode_envelope (envelopeOf H schema key e.revision payload) (encodeCanonical_eq_ok_iff.mp hpayload).1,
    Option.some.injEq] at hdecoded
  rw [← hdecoded] at hschema
  exact hschema

/-- Canonical envelopes. What is accepted under a key and a schema is what the encoder writes for the values that were
read; two accepted texts of one revision and record are one text; no text is accepted under two keys or two schemas; and
what the encoder wrote is read back exactly if the schema and the strings of the record are valid UTF-8 and the record
is valid. -/
theorem envelopes_canonical_iff (hH : H.Ideal) (hJ : Documented J R) (schema key : Text) :
    (∀ data e record, decodeEnvelope J H R data key schema = .ok (e, record) →
      encodeEnvelope J H R schema key e.revision record = .ok data) ∧
    (∀ data data' e e' record, decodeEnvelope J H R data key schema = .ok (e, record) →
      decodeEnvelope J H R data' key schema = .ok (e', record) → e.revision = e'.revision → data = data') ∧
    (∀ data result key' schema' result', decodeEnvelope J H R data key schema = .ok result →
      decodeEnvelope J H R data key' schema' = .ok result' → key = key' ∧ schema = schema') ∧
    (∀ revision record data, encodeEnvelope J H R schema key revision record = .ok data →
      ((∃ e, decodeEnvelope J H R data key schema = .ok (e, record) ∧ e.revision = revision) ↔
        utf8Valid 0 schema = true ∧ R.Wellformed record)) := by
  have hown : ∀ data e record, decodeEnvelope J H R data key schema = .ok (e, record) →
      encodeEnvelope J H R schema key e.revision record = .ok data := by
    intro data e record h
    exact (decodeEnvelope_eq_ok_iff.mp h).2.2.2.2.2.2
  refine ⟨hown, ?_, ?_, ?_⟩
  · intro data data' e e' record h h' hrevision
    have hencode := hown data e record h
    rw [hrevision, hown data' e' record h'] at hencode
    exact (Except.ok.inj hencode).symm
  · rintro data ⟨e, record⟩ key' schema' ⟨e', record'⟩ h h'
    obtain ⟨he, hschema, _, _, _, hversion, _⟩ := decodeEnvelope_eq_ok_iff.mp h
    obtain ⟨he', hschema', _, _, _, hversion', _⟩ := decodeEnvelope_eq_ok_iff.mp h'
    -- both read the same envelope
    obtain rfl : e = e' := Except.ok.inj (he.symm.trans he')
    exact ⟨key_of_logicalVersion hH (hversion.symm.trans hversion'), hschema.symm.trans hschema'⟩
  · intro revision record data hencode
    constructor
    · rintro ⟨e, hdecode, _⟩
      exact wellformed_of_decodeEnvelope hJ hdecode
    · rintro ⟨hschema, hrecord⟩
      exact decodeEnvelope_of_wellformed hH hJ hencode hschema hrecord

end

/-! ## Records of one string -/

namespace OneString

/-- Texts of strings and of envelopes; what is replaced in a string is written as an escape. -/
inductive Doc where
  | string (escaped : Bool) (content : Text)
  | envelope (schema : Text) (revision : UInt64) (logicalVersion : Text) (payload : Doc)
  deriving DecidableEq

def tokens : Doc → List Token
  | .string _ content => [.string content]
  | .envelope schema _ version payload =>
    [.beginObject, .string (ascii "schema"), .string schema, .string (ascii "revision"), .scalar,
      .string (ascii "logicalVersion"), .string version, .string (ascii "payload")] ++ (tokens payload ++ [.endObject])

def json : JsonText Doc where
  length _ := 1
  valid _ := true
  tokens := tokens
  encode e := .envelope (coerce 0 e.schema) e.revision (coerce 0 e.logicalVersion) e.payload
  decode
    | .string _ _ => none
    | .envelope schema revision version payload =>
      some { schema := schema, revision := revision, logicalVersion := version, payload := payload }

def records : RecordJson Doc Text where
  encode s := some (.string (!utf8Valid 0 s) (coerce 0 s))
  decode
    | .string _ content => if utf8Valid 0 content then some content else none
    | .envelope _ _ _ _ => none
  validate s := rejectIf s.isEmpty (newError .invalid "empty record")
  strings s := [s]

def hash : Hash Doc where
  sha256 := id
  digest _ := List.replicate 32 0
  base64 s := 65 :: s.flatMap fun b => [65 + b / 16, 65 + b % 16]

theorem documented : Documented json records where
  valid_record _ := rfl
  decode_record := by
    rintro s text ⟨⟩ hvalid
    have hs : utf8Valid 0 s = true := hvalid s (mem_singleton.mpr rfl)
    have hkept : coerce 0 s = s := (coerce_eq_iff 0 s).mpr hs
    exact ⟨rfl, by simp [records, hkept, hs]⟩
  strings_decoded := by
    intro s text h
    cases text with
    | envelope => cases h
    | string escaped content =>
      obtain ⟨hvalid, rfl⟩ : utf8Valid 0 content = true ∧ content = s := by simpa [records] using h
      simpa [records] using hvalid
  valid_envelope _ _ := rfl
  tokens_envelope _ _ := rfl
  decode_envelope _ _ := rfl

theorem letters_valid (s : Text) : utf8Valid 0 (s.flatMap fun b => [65 + b / 16, 65 + b % 16]) = true := by
  have hascii : ∀ b rest, b < 0x80 → utf8Valid 0 (b :: rest) = utf8Valid 0 rest := by
    intro b rest hb
    simp [utf8Valid, runeTail, hb]
  induction s with
  | nil => rfl
  | cons b rest ih =>
    have hhigh : 65 + b / 16 < 0x80 := by
      rw [UInt8.lt_iff_toNat_lt]
      have := b.toNat_lt
      simp
      omega
    have hlow : 65 + b % 16 < 0x80 := by
      rw [UInt8.lt_iff_toNat_lt]
      simp
      omega
    rw [flatMap_cons, cons_append, cons_append, nil_append, hascii _ _ hhigh, hascii _ _ hlow]
    exact ih

theorem letters_injective {s t : Text} (h : (s.flatMap fun b => [65 + b / 16, 65 + b % 16]) =
    t.flatMap fun b => [65 + b / 16, 65 + b % 16]) : s = t := by
  induction s generalizing t with
  | nil =>
    cases t with
    | nil => rfl
    | cons c t => cases h
  | cons b s ih =>
    cases t with
    | nil => cases h
    | cons c t =>
      simp only [flatMap_cons, cons_append, nil_append, cons.injEq] at h
      obtain ⟨hhigh, hlow, hrest⟩ := h
      have hbyte : b = c := by
        have hb := b.toNat_lt
        have hc := c.toNat_lt
        have hh := congrArg UInt8.toNat hhigh
        have hl := congrArg UInt8.toNat hlow
        rw [← UInt8.toNat_inj]
        simp at hh hl
        omega
      rw [hbyte, ih hrest]

theorem hash_ideal : hash.Ideal where
  digest_length _ := rfl
  injective _ _ h := letters_injective (cons.inj h).2
  printable s := letters_valid s
  nonempty _ := cons_ne_nil _ _

/-- A record with a valid string is read back, and nothing else is read. -/
theorem envelopes_canonical_oneString : (∃ data, encodeEnvelope json hash records [97] [107] 1 [98] = .ok data ∧
      ∃ e, decodeEnvelope json hash records data [107] [97] = .ok (e, [98]) ∧ e.revision = 1) := by
  obtain ⟨_, _, _, hread⟩ := envelopes_canonical_iff hash_ideal documented [97] [107]
  refine ⟨_, rfl, ?_⟩
  exact (hread 1 [98] _ rfl).mpr ⟨rfl, fun s hs => by rw [List.mem_singleton.mp hs]; rfl, rfl⟩

/-- A schema with an invalid byte is encoded, and what was encoded is refused; so is a record with one. -/
theorem invalid_strings_refused :
    (match encodeEnvelope json hash records [0xff] [107] 1 [98] with
      | .ok data => decodeEnvelope json hash records data [107] [0xff]
      | .error e => .error e) = .error (newError .invalid "invalid canonical envelope fields") ∧
    (match encodeEnvelope json hash records [97] [107] 1 [0xff] with
      | .ok data => decodeEnvelope json hash records data [107] [97]
      | .error e => .error e) = .error (newError .invalid "non-canonical payload encoding for k") := by
  decide

end OneString

end Format

end EndlessFS
