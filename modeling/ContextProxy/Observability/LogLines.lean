import ContextProxy.Context.Candidates
import ContextProxy.Conversation.Message
import ContextProxy.Lib.Except
import ContextProxy.Lib.JsonPrint
import ContextProxy.Lib.Ranked

/-!
# Secrets in log lines

`JsonFormatter.format` writes a record as one line of JSON, with its extra fields. `redact` masks the values of a dict whose key names a secret, at any depth, but the formatter hands it only the values of the extra fields and never looks at their names. The line does not depend on the secrets of a record exactly if no logged extra field has the name of a secret, or there is no line in any case (`secrets_hidden_iff`).
-/

namespace ContextProxy

open Json JsonText
open List hiding set

/-! ### Values -/

/-- A key of a dict; `object` is any other hashable object, with what `str` makes of it. -/
inductive PyKey where
  | none
  | bool (b : Bool)
  | int (n : ℤ)
  | float (q : ℚ)
  | str (s : String)
  | object (text : String)

/-- A value in a record. A set has its items in the order of iteration. A set and an object of another type also have what `str` makes of them. -/
inductive PyValue where
  | none
  | bool (b : Bool)
  | int (n : ℤ)
  | float (q : ℚ)
  | str (s : String)
  | dict (items : List (PyKey × PyValue))
  | list (items : List PyValue)
  | tuple (items : List PyValue)
  | set (items : List PyValue) (text : String)
  | object (text : String)

/-! ### Redaction -/

/-- What `[A-Za-z0-9._~+/=-]` matches with `re.IGNORECASE`: with the four letters beyond ASCII that are variants of `i`, `s` and `k`. -/
def isCredentialChar (c : Char) : Bool :=
  c.isAlphanum || c = '.' || c = '_' || c = '~' || c = '+' || c = '/' || c = '=' || c = '-' ||
    c.toNat = 0x130 || c.toNat = 0x131 || c.toNat = 0x17F || c.toNat = 0x212A

/-- A match of `(Bearer\s+)[A-Za-z0-9._~+/=-]+` at the start of a text: the group, and the text behind the match. -/
def bearerMatch (text : List Char) : Option (List Char × List Char) :=
  let spaces := (text.drop 6).takeWhile isSpace
  let behind := (text.drop 6).dropWhile isSpace
  if (text.take 6).map Char.toLower = ['b', 'e', 'a', 'r', 'e', 'r'] ∧ spaces ≠ [] ∧ behind.takeWhile isCredentialChar ≠ [] then
    some (text.take 6 ++ spaces, behind.dropWhile isCredentialChar)
  else none

def redacted : String := "[REDACTED]"

/-- The substitution, as long as there is fuel. -/
def scrub : ℕ → List Char → List Char
  | 0, text => text
  | _, [] => []
  | fuel + 1, c :: cs =>
    match bearerMatch (c :: cs) with
    | some (group, rest) => group ++ redacted.toList ++ scrub fuel rest
    | none => c :: scrub fuel cs

def redactText (value : String) : String := String.ofList (scrub value.toList.length value.toList)

/-- `_KEY_FIELDS`. -/
def keyFields : List String :=
  ["api_key", "apikey", "api-key", "token", "access_token", "authorization", "secret", "password", "credential",
    "client_secret"]

/-- What the formatter gets from its surroundings: `str.lower`, how floats are written, and the identifier of the request. -/
structure LogContext where
  lower : String → String
  floats : FloatText
  requestId : String

namespace LogContext

variable (ctx : LogContext)

/-- `_is_sensitive_key`, of the text of a key. -/
def isSensitiveName (name : String) : Bool :=
  let normalized := ctx.lower (String.ofList (name.toList.filter fun c => !(c = '-' || c = '_' || isSpace c)))
  keyFields.any fun marker => occursIn (String.ofList (marker.toList.filter (· ≠ '_'))) normalized

/-- `str(key)`. -/
def keyText : PyKey → String
  | .none => "None"
  | .bool b => if b then "True" else "False"
  | .int n => toString n
  | .float q => String.ofList (ctx.floats.text q)
  | .str s => s
  | .object text => text

def isSensitiveKey (key : PyKey) : Bool := ctx.isSensitiveName (ctx.keyText key)

mutual

def redact : PyValue → PyValue
  | .str s => .str (redactText s)
  | .dict items => .dict (redactDict items)
  | .list items => .list (redactItems items)
  | .tuple items => .tuple (redactItems items)
  | .set items _ => .list (redactItems items)
  | value => value

def redactItems : List PyValue → List PyValue
  | [] => []
  | item :: items => redact item :: redactItems items

def redactDict : List (PyKey × PyValue) → List (PyKey × PyValue)
  | [] => []
  | (key, value) :: items => (key, if ctx.isSensitiveKey key then .str redacted else redact value) :: redactDict items

end

/-! ### The line -/

/-- A key as `json.dumps` writes it, or nothing where it raises `TypeError`. -/
def jsonKey : PyKey → Option String
  | .none => some "null"
  | .bool b => some (if b then "true" else "false")
  | .int n => some (toString n)
  | .float q => some (String.ofList (ctx.floats.text q))
  | .str s => some s
  | .object _ => none

mutual

/-- The value that `json.dumps` writes with `default=str`. -/
def toJson : PyValue → Option Json
  | .none => some .null
  | .bool b => some (.bool b)
  | .int n => some (.int n)
  | .float q => some (.float q)
  | .str s => some (.str s)
  | .dict items => (toJsonFields items).map .obj
  | .list items | .tuple items => (toJsonItems items).map .arr
  | .set _ text | .object text => some (.str text)

def toJsonItems : List PyValue → Option (List Json)
  | [] => some []
  | item :: items => (toJson item).bind fun json => (toJsonItems items).map (json :: ·)

def toJsonFields : List (PyKey × PyValue) → Option Fields
  | [] => some []
  | (key, value) :: items =>
    (ctx.jsonKey key).bind fun name => (toJson value).bind fun json => (toJsonFields items).map ((name, json) :: ·)

end

end LogContext

/-- What a record has in `exc_info`: the name of the type, the text of the exception, and the formatted traceback. -/
structure ExceptionInfo where
  typeName : Option String
  message : Option String
  traceback : String

/-- A log record: the formatted time, level, logger and message, the exception, and the attributes of the object. -/
structure LogRecord where
  ts : String
  levelname : String
  name : String
  message : String
  excInfo : Option ExceptionInfo
  attributes : List (String × PyValue)
  nodup : (attributes.map Prod.fst).Nodup

/-- The attributes that every record has. -/
def reservedNames : List String :=
  ["name", "msg", "args", "levelname", "levelno", "pathname", "filename", "module", "exc_info", "exc_text", "stack_info",
    "lineno", "funcName", "created", "msecs", "relativeCreated", "thread", "threadName", "processName", "process", "taskName"]

/-- The attributes that the formatter takes over. -/
def isExtra (name : String) : Bool :=
  name ∉ reservedNames && name ∉ ["asctime", "message", "exc_info"] && name.toList.head? ≠ some '_'

def LogRecord.extras (record : LogRecord) : List (String × PyValue) := record.attributes.filter fun entry => isExtra entry.1

def optionalText : Option String → PyValue
  | none => .none
  | some text => .str text

def ExceptionInfo.value (info : ExceptionInfo) : PyValue :=
  .dict [(.str "type", optionalText info.typeName), (.str "message", optionalText (info.message.map redactText)),
    (.str "traceback", .str (redactText info.traceback))]

namespace LogContext

variable (ctx : LogContext)

def basePayload (record : LogRecord) : List (String × PyValue) :=
  [("ts", .str record.ts), ("level", .str record.levelname), ("logger", .str record.name),
    ("event", .str (redactText record.message)), ("request_id", .str ctx.requestId)] ++
    (record.excInfo.map fun info => ("exception", info.value)).toList

def payload (record : LogRecord) : List (String × PyValue) :=
  Dict.update (ctx.basePayload record) (record.extras.map fun entry => (entry.1, ctx.redact entry.2))

/-- `json.dumps(payload, ensure_ascii=False, default=str)`, or nothing where it raises. -/
def dumps (payload : List (String × PyValue)) : Option String :=
  (payload.mapM fun entry => (ctx.toJson entry.2).map fun json => (entry.1, json)).map fun fields =>
    String.ofList (print ctx.floats (.obj fields))

def format (record : LogRecord) : Option String := ctx.dumps (ctx.payload record)

/-! ### Records that differ in secrets -/

mutual

/-- A value without its secrets: what is stored under the key of one is left out. -/
def mask : PyValue → PyValue
  | .dict items => .dict (maskDict items)
  | .list items => .list (maskItems items)
  | .tuple items => .tuple (maskItems items)
  | .set items text => .set (maskItems items) text
  | value => value

def maskItems : List PyValue → List PyValue
  | [] => []
  | item :: items => mask item :: maskItems items

def maskDict : List (PyKey × PyValue) → List (PyKey × PyValue)
  | [] => []
  | (key, value) :: items => (key, if ctx.isSensitiveKey key then .none else mask value) :: maskDict items

end

def maskEntry (entry : String × PyValue) : String × PyValue :=
  (entry.1, if ctx.isSensitiveName entry.1 then .none else ctx.mask entry.2)

/-- Two records differ at most in their secrets, at any depth and in the extra fields themselves. -/
structure SameButSecrets (record record' : LogRecord) : Prop where
  ts : record'.ts = record.ts
  levelname : record'.levelname = record.levelname
  name : record'.name = record.name
  message : record'.message = record.message
  excInfo : record'.excInfo = record.excInfo
  attributes : record'.attributes.map ctx.maskEntry = record.attributes.map ctx.maskEntry

def HidesSecrets (record : LogRecord) : Prop :=
  ∀ record', ctx.SameButSecrets record record' → ctx.format record' = ctx.format record

variable {ctx} {record record' : LogRecord}

/-! ### What redaction hides -/

mutual

/-- Redaction does not look at secrets. -/
theorem redact_mask : ∀ value : PyValue, ctx.redact (ctx.mask value) = ctx.redact value
  | .none | .bool _ | .int _ | .float _ | .str _ | .object _ => by simp only [mask]
  | .dict items => by rw [mask, redact, redact, redactDict_maskDict items]
  | .list items => by rw [mask, redact, redact, redactItems_maskItems items]
  | .tuple items => by rw [mask, redact, redact, redactItems_maskItems items]
  | .set items text => by rw [mask, redact, redact, redactItems_maskItems items]

theorem redactItems_maskItems : ∀ items : List PyValue, ctx.redactItems (ctx.maskItems items) = ctx.redactItems items
  | [] => rfl
  | item :: items => by rw [maskItems, redactItems, redactItems, redact_mask item, redactItems_maskItems items]

theorem redactDict_maskDict : ∀ items : List (PyKey × PyValue), ctx.redactDict (ctx.maskDict items) = ctx.redactDict items
  | [] => rfl
  | (key, value) :: items => by
    rw [maskDict, redactDict, redactDict, redactDict_maskDict items]
    split
    · rfl
    · rw [redact_mask value]

end

theorem sameButSecrets_refl (ctx : LogContext) (record : LogRecord) : ctx.SameButSecrets record record :=
  ⟨rfl, rfl, rfl, rfl, rfl, rfl⟩

theorem SameButSecrets.extras (h : ctx.SameButSecrets record record') :
    record'.extras.map ctx.maskEntry = record.extras.map ctx.maskEntry := by
  have hfilter : ∀ entries : List (String × PyValue),
      (entries.filter fun entry => isExtra entry.1).map ctx.maskEntry =
        (entries.map ctx.maskEntry).filter fun entry => isExtra entry.1 := by
    intro entries
    rw [filter_map]
    rfl
  rw [LogRecord.extras, LogRecord.extras, hfilter, hfilter, h.attributes]

theorem SameButSecrets.basePayload (h : ctx.SameButSecrets record record') :
    ctx.basePayload record' = ctx.basePayload record := by
  rw [LogContext.basePayload, LogContext.basePayload, h.ts, h.levelname, h.name, h.message, h.excInfo]

variable {entry : String × PyValue}

theorem redact_maskEntry (h : ctx.isSensitiveName entry.1 = false) :
    ((ctx.maskEntry entry).1, ctx.redact (ctx.maskEntry entry).2) = (entry.1, ctx.redact entry.2) := by
  rw [maskEntry, h, if_neg Bool.false_ne_true, redact_mask]

/-- Without secrets among the names of the extra fields, the payload has none. -/
theorem SameButSecrets.payload (h : ctx.SameButSecrets record record')
    (hnames : ∀ entry ∈ record.extras, ctx.isSensitiveName entry.1 = false) :
    ctx.payload record' = ctx.payload record := by
  have hmasked : ∀ {entries : List (String × PyValue)}, (∀ entry ∈ entries, ctx.isSensitiveName entry.1 = false) →
      (entries.map fun entry => (entry.1, ctx.redact entry.2)) =
        (entries.map ctx.maskEntry).map fun entry => (entry.1, ctx.redact entry.2) := by
    intro entries hentries
    rw [map_map]
    apply map_congr_left
    intro entry hentry
    exact (redact_maskEntry (hentries entry hentry)).symm
  have hnames' : ∀ entry ∈ record'.extras, ctx.isSensitiveName entry.1 = false := by
    intro entry hentry
    have hmem : ctx.maskEntry entry ∈ record.extras.map ctx.maskEntry := h.extras ▸ mem_map_of_mem hentry
    obtain ⟨other, hother, heq⟩ := mem_map.mp hmem
    rw [show entry.1 = other.1 from (congrArg Prod.fst heq).symm]
    exact hnames other hother
  rw [LogContext.payload, LogContext.payload, h.basePayload, hmasked hnames, hmasked hnames', h.extras]

/-! ### Values that JSON refuses -/

theorem nodup_extras (record : LogRecord) : (record.extras.map Prod.fst).Nodup :=
  record.nodup.sublist (filter_sublist.map Prod.fst)

theorem nodup_basePayload (ctx : LogContext) (record : LogRecord) : ((ctx.basePayload record).map Prod.fst).Nodup := by
  rw [LogContext.basePayload]
  cases record.excInfo with
  | none => simp
  | some info => simp

theorem mem_payload (h : entry ∈ record.extras) : (entry.1, ctx.redact entry.2) ∈ ctx.payload record := by
  have hnodup : ((record.extras.map fun entry => (entry.1, ctx.redact entry.2)).reverse.map Prod.fst).Nodup := by
    rw [map_reverse, nodup_reverse, map_map]
    exact nodup_extras record
  have hmem : (entry.1, ctx.redact entry.2) ∈ (record.extras.map fun entry => (entry.1, ctx.redact entry.2)).reverse :=
    mem_reverse.mpr (mem_map_of_mem h)
  rw [LogContext.payload, Dict.mem_iff_lookup (Dict.nodup_keys_update _ (nodup_basePayload ctx record)), Dict.lookup_update,
    (Dict.mem_iff_lookup hnodup).mp hmem, Option.some_or]

/-- A key that JSON does not have, in a field that is no secret: there is no line, whatever the secrets are. -/
theorem SameButSecrets.format_eq_none (h : ctx.SameButSecrets record record') (hentry : entry ∈ record.extras)
    (hname : ctx.isSensitiveName entry.1 = false) (hrefused : ctx.toJson (ctx.redact entry.2) = none) :
    ctx.format record' = none := by
  have hmem : ctx.maskEntry entry ∈ record'.extras.map ctx.maskEntry := by
    rw [h.extras]
    exact mem_map_of_mem hentry
  obtain ⟨other, hother, heq⟩ := mem_map.mp hmem
  have hsame : (ctx.maskEntry other).1 = (ctx.maskEntry entry).1 := congrArg Prod.fst heq
  have hname' : ctx.isSensitiveName other.1 = false := by
    rw [show other.1 = entry.1 from hsame]
    exact hname
  have hredact : ctx.redact other.2 = ctx.redact entry.2 := by
    have := redact_maskEntry hname'
    rw [heq, redact_maskEntry hname] at this
    exact (congrArg Prod.snd this).symm
  rw [format, dumps, mapM_eq_none_of_mem (mem_payload hother)]
  · rfl
  · rw [hredact, hrefused]
    rfl

/-! ### A secret that is seen -/

/-- The record with other values in the extra fields that are secrets. -/
def fill (ctx : LogContext) (record : LogRecord) (value : String → PyValue) : LogRecord where
  __ := record
  attributes := record.attributes.map fun entry =>
    (entry.1, if ctx.isSensitiveName entry.1 then value entry.1 else entry.2)
  nodup := by
    rw [map_map]
    exact record.nodup

theorem sameButSecrets_fill (ctx : LogContext) (record : LogRecord) (value : String → PyValue) :
    ctx.SameButSecrets record (ctx.fill record value) where
  ts := rfl
  levelname := rfl
  name := rfl
  message := rfl
  excInfo := rfl
  attributes := by
    rw [fill, map_map]
    apply map_congr_left
    intro entry _
    rw [Function.comp_apply, maskEntry, maskEntry]
    split <;> simp_all

/-- The extra field `name` of the record holds the text; the other secrets are empty. -/
def revealing (ctx : LogContext) (record : LogRecord) (name text : String) : LogRecord :=
  ctx.fill record fun field => if field = name then .str text else .str ""

theorem extras_fill (ctx : LogContext) (record : LogRecord) (value : String → PyValue) :
    (ctx.fill record value).extras = record.extras.map fun entry =>
      (entry.1, if ctx.isSensitiveName entry.1 then value entry.1 else entry.2) := by
  rw [LogRecord.extras, fill, filter_map]
  rfl

theorem exists_payload_revealing (hentry : entry ∈ record.extras) (hname : ctx.isSensitiveName entry.1 = true) :
    ∃ before after, ∀ text, ctx.payload (ctx.revealing record entry.1 text) =
      before ++ (entry.1, .str (redactText text)) :: after := by
  obtain ⟨front, back, hcut⟩ := append_of_mem hentry
  have hnodup := nodup_extras record
  rw [hcut, map_append, map_cons, nodup_append', nodup_cons, disjoint_cons_right] at hnodup
  obtain ⟨-, ⟨hback, -⟩, hfront, -⟩ := hnodup
  -- the other fields do not hold the text
  have hothers : ∀ entries : List (String × PyValue), entry.1 ∉ entries.map Prod.fst → ∀ text,
      (entries.map fun other => (other.1, ctx.redact
        (if ctx.isSensitiveName other.1 then if other.1 = entry.1 then .str text else .str "" else other.2))) =
      entries.map fun other => (other.1, ctx.redact (if ctx.isSensitiveName other.1 then .str "" else other.2)) := by
    intro entries hentries text
    apply map_congr_left
    intro other hother
    have hne : other.1 ≠ entry.1 := fun heq => hentries (heq ▸ mem_map_of_mem hother)
    rw [if_neg hne]
  obtain ⟨before, after, hupdate⟩ := Dict.exists_update_eq (ctx.basePayload record)
    (front.map fun other => (other.1, ctx.redact (if ctx.isSensitiveName other.1 then .str "" else other.2)))
    (back.map fun other => (other.1, ctx.redact (if ctx.isSensitiveName other.1 then .str "" else other.2)))
    (k := entry.1) (by rwa [map_map])
  refine ⟨before, after, fun text => ?_⟩
  rw [← hupdate, LogContext.payload, revealing, extras_fill, map_map, hcut, map_append, map_cons]
  simp only [Function.comp_def]
  rw [hothers front hfront text, hothers back hback text, hname, if_pos rfl, if_pos trivial, redact]
  rfl

theorem toJson_ne_none_of_mem_basePayload (h : entry ∈ ctx.basePayload record) : ctx.toJson entry.2 ≠ none := by
  have hoptional : ∀ text, ∃ json, ctx.toJson (optionalText text) = some json := by
    intro text
    cases text <;> exact ⟨_, rfl⟩
  rw [LogContext.basePayload] at h
  rcases mem_append.mp h with hfixed | hexception
  · simp only [mem_cons, not_mem_nil, or_false] at hfixed
    rcases hfixed with rfl | rfl | rfl | rfl | rfl <;> simp [toJson]
  · obtain ⟨info, -, rfl⟩ := Option.map_eq_some_iff.mp (Option.mem_toList.mp hexception)
    obtain ⟨typeName, htype⟩ := hoptional info.typeName
    obtain ⟨message, hmessage⟩ := hoptional (info.message.map redactText)
    simp [ExceptionInfo.value, toJson, toJsonFields, jsonKey, htype, hmessage]

theorem exists_toJson_of_mem
    (hprintable : ∀ entry ∈ record.extras, ctx.isSensitiveName entry.1 = false → ctx.toJson (ctx.redact entry.2) ≠ none)
    (name text : String) (h : entry ∈ ctx.payload (ctx.revealing record name text)) : ctx.toJson entry.2 ≠ none := by
  rcases Dict.mem_of_mem_update h with h | h
  · rw [revealing, extras_fill, map_map] at h
    obtain ⟨other, hother, rfl⟩ := mem_map.mp h
    simp only [Function.comp_apply]
    cases hname : ctx.isSensitiveName other.1 with
    | false => exact hprintable other hother hname
    | true =>
      rw [if_pos rfl]
      split <;> simp [redact, toJson]
  · exact toJson_ne_none_of_mem_basePayload h

theorem exists_format_revealing
    (hprintable : ∀ entry ∈ record.extras, ctx.isSensitiveName entry.1 = false → ctx.toJson (ctx.redact entry.2) ≠ none)
    (hentry : entry ∈ record.extras) (hname : ctx.isSensitiveName entry.1 = true) :
    ∃ front back, ∀ text, ctx.format (ctx.revealing record entry.1 text) =
      some (String.ofList (front ++ quote (redactText text) ++ back)) := by
  obtain ⟨before, after, hpayload⟩ := exists_payload_revealing hentry hname
  have hothers : ∀ other ∈ before ++ after, ctx.toJson other.2 ≠ none := by
    intro other hother
    refine exists_toJson_of_mem hprintable entry.1 "" ?_
    rw [hpayload]
    rcases mem_append.mp hother with hother | hother
    · exact mem_append_left _ hother
    · exact mem_append_right _ (mem_cons_of_mem _ hother)
  have hwritten : ∀ entries : List (String × PyValue), (∀ other ∈ entries, ctx.toJson other.2 ≠ none) →
      ∃ fields, entries.mapM (fun entry => (ctx.toJson entry.2).map fun json => (entry.1, json)) = some fields := by
    intro entries hentries
    apply exists_mapM_eq_some
    intro other hother
    rw [ne_eq, Option.map_eq_none_iff]
    exact hentries other hother
  obtain ⟨fields, hfields⟩ := hwritten before fun other hother => hothers other (mem_append_left _ hother)
  obtain ⟨rest, hrest⟩ := hwritten after fun other hother => hothers other (mem_append_right _ hother)
  obtain ⟨front, back, hprint⟩ := exists_print_eq ctx.floats fields rest entry.1
  refine ⟨front, back, fun text => ?_⟩
  rw [format, hpayload, dumps, mapM_append, mapM_cons, hfields, hrest, toJson]
  exact congrArg (fun line => some (String.ofList line)) (hprint (.str (redactText text)))

theorem middle_eq_of_line_eq {front middle middle' back : List Char}
    (h : some (String.ofList (front ++ middle ++ back)) = some (String.ofList (front ++ middle' ++ back))) :
    middle = middle' :=
  append_cancel_left (append_cancel_right (String.ofList_injective (Option.some.inj h)))

/-- The line of a record does not depend on its secrets exactly if none of the extra fields that are logged has the name of one; or if there is no line at all, because another field has a key that JSON refuses. -/
theorem secrets_hidden_iff (ctx : LogContext) (record : LogRecord) : ctx.HidesSecrets record ↔
      (∀ entry ∈ record.extras, ctx.isSensitiveName entry.1 = false) ∨
        ∃ entry ∈ record.extras, ctx.isSensitiveName entry.1 = false ∧ ctx.toJson (ctx.redact entry.2) = none := by
  constructor
  · intro h
    by_contra hseen
    rw [not_or] at hseen
    obtain ⟨hsecret, hprintable⟩ := hseen
    push Not at hsecret hprintable
    obtain ⟨entry, hentry, hname⟩ := hsecret
    obtain ⟨front, back, hline⟩ := exists_format_revealing hprintable hentry (Bool.eq_true_of_not_eq_false hname)
    have hsame : ∀ text, ctx.format (ctx.revealing record entry.1 text) = ctx.format record :=
      fun text => h _ (sameButSecrets_fill ctx record _)
    have heq := (hsame "a").trans (hsame "b").symm
    rw [hline, hline] at heq
    exact absurd (middle_eq_of_line_eq heq) (by decide)
  · intro h record' hsame
    rcases h with hnames | ⟨entry, hentry, hname, hrefused⟩
    · rw [format, format, hsame.payload hnames]
    · rw [hsame.format_eq_none hentry hname hrefused]
      rw [(sameButSecrets_refl ctx record).format_eq_none hentry hname hrefused]

end LogContext

def plainContext : LogContext where
  lower := fun text => String.ofList (text.toList.map Char.toLower)
  floats := FloatText.zero
  requestId := "-"

def recordWith (name : String) (value : PyValue) : LogRecord where
  ts := "2026-01-01T00:00:00+0000"
  levelname := "INFO"
  name := "context_proxy"
  message := "started"
  excInfo := none
  attributes := [(name, value)]
  nodup := nodup_singleton _

/-- A key that is given as an extra field is written out. -/
theorem secret_shown_extra :
    plainContext.SameButSecrets (recordWith "api_key" (.str "sk-1")) (recordWith "api_key" (.str "sk-2")) ∧
      plainContext.format (recordWith "api_key" (.str "sk-1")) ≠ plainContext.format (recordWith "api_key" (.str "sk-2")) := by
  have hsecret : plainContext.isSensitiveName "api_key" = true := by decide +kernel
  have hextras : (recordWith "api_key" (.str "sk-1")).extras = [("api_key", .str "sk-1")] := by
    rw [LogRecord.extras, recordWith, filter_cons, if_pos (by decide +kernel)]
    rfl
  have hreveal : ∀ text, plainContext.revealing (recordWith "api_key" (.str "sk-1")) "api_key" text
      = recordWith "api_key" (.str text) := by
    intro text
    simp [LogContext.revealing, LogContext.fill, recordWith, hsecret]
  have hprintable : ∀ entry ∈ (recordWith "api_key" (.str "sk-1")).extras,
      plainContext.isSensitiveName entry.1 = false → plainContext.toJson (plainContext.redact entry.2) ≠ none := by
    rw [hextras]
    intro entry hentry hname
    rw [mem_singleton.mp hentry, hsecret] at hname
    cases hname
  have hentry : ("api_key", PyValue.str "sk-1") ∈ (recordWith "api_key" (.str "sk-1")).extras := by
    rw [hextras]
    exact mem_singleton_self _
  obtain ⟨front, back, hrevealing⟩ := LogContext.exists_format_revealing hprintable hentry hsecret
  have hline : ∀ text, plainContext.format (recordWith "api_key" (.str text))
      = some (String.ofList (front ++ quote (redactText text) ++ back)) := by
    intro text
    rw [← hreveal]
    exact hrevealing text
  refine ⟨⟨rfl, rfl, rfl, rfl, rfl, rfl⟩, fun heq => ?_⟩
  rw [hline, hline] at heq
  exact absurd (LogContext.middle_eq_of_line_eq heq) (by decide)

end ContextProxy
