/-
Commands out of values: the name is the first element, upper-cased as Unicode text,
and the arity and the kinds of the arguments depend on it.  The names are meant to be
read without regard to ASCII case; the reader is compared with that reading.
-/
import Seshat.Lib.CaseMapping
import Seshat.Resp.Value

namespace Seshat

open CaseMapping

/-- `RespCommand`. -/
inductive RespCommand where
  | get (key : Bytes)
  | set (key value : Bytes)
  | del (keys : List Bytes)
  | exists (keys : List Bytes)
  | ping (message : Option Bytes)
deriving DecidableEq, Repr

/-- `Option::ok_or`. -/
def okOr {α : Type} (x : Option α) (e : ProtocolError) : Except ProtocolError α :=
  match x with
  | some a => .ok a
  | none => .error e

namespace RespCommand

def parseGet (elements : List RespValue) : Except ProtocolError RespCommand :=
  match elements with
  | [_, key] => do
      let key ← okOr key.asBytes .invalidKey
      return .get key
  | _ => .error (.wrongArity "GET" 2 elements.length)

def parseSet (elements : List RespValue) : Except ProtocolError RespCommand :=
  match elements with
  | [_, key, value] => do
      let key ← okOr key.asBytes .invalidKey
      let value ← okOr value.asBytes .invalidValue
      return .set key value
  | _ => .error (.wrongArity "SET" 3 elements.length)

/-- The loop of a command over one or more keys. -/
def parseKeys (command : String) (build : List Bytes → RespCommand)
    (elements : List RespValue) : Except ProtocolError RespCommand :=
  if elements.length < 2 then .error (.wrongArity command 2 elements.length)
  else do
    let keys ← elements.tail.mapM fun element => okOr element.asBytes .invalidKey
    return build keys

def parseDel : List RespValue → Except ProtocolError RespCommand :=
  parseKeys "DEL" .del

def parseExists : List RespValue → Except ProtocolError RespCommand :=
  parseKeys "EXISTS" .exists

def parsePing (elements : List RespValue) : Except ProtocolError RespCommand :=
  match elements with
  | [_] => .ok (.ping none)
  | [_, message] => .ok (.ping message.asBytes)
  | _ => .error (.wrongArity "PING" 2 elements.length)

/-- `RespCommand::from_value`. -/
def fromValue (value : RespValue) : Except ProtocolError RespCommand := do
  let elements ← okOr value.intoArray .expectedArray
  match elements with
  | [] => throw .emptyCommand
  | first :: _ =>
      let cmdName ← okOr first.asBytes .invalidCommandName
      let cmdName ← okOr (Utf8.fromUtf8 cmdName) .invalidCommandName
      -- upper case is that of the whole text, not of its ASCII letters alone
      match toUppercase (Utf8.chars cmdName) with
      | ['G', 'E', 'T'] => parseGet elements
      | ['S', 'E', 'T'] => parseSet elements
      | ['D', 'E', 'L'] => parseDel elements
      | ['E', 'X', 'I', 'S', 'T', 'S'] => parseExists elements
      | ['P', 'I', 'N', 'G'] => parsePing elements
      | cmdStr => throw (.unknownCommand cmdStr)

end RespCommand

/-! ## What is meant to be accepted -/

inductive CommandName where
  | get
  | set
  | del
  | exists
  | ping
deriving DecidableEq, Repr

namespace CommandName

def word : CommandName → List Char
  | .get => ['G', 'E', 'T']
  | .set => ['S', 'E', 'T']
  | .del => ['D', 'E', 'L']
  | .exists => ['E', 'X', 'I', 'S', 'T', 'S']
  | .ping => ['P', 'I', 'N', 'G']

theorem ascii_word (name : CommandName) : Ascii name.word := by
  cases name <;> simp [Ascii, word]

/-- The arguments a command takes, and the command it then is.  A message that is
no string is dropped. -/
inductive Takes : CommandName → List RespValue → RespCommand → Prop where
  | get {key : RespValue} {k : Bytes} (hkey : key.asBytes = some k) : Takes .get [key] (.get k)
  | set {key value : RespValue} {k v : Bytes} (hkey : key.asBytes = some k)
      (hvalue : value.asBytes = some v) : Takes .set [key, value] (.set k v)
  | del {args : List RespValue} {keys : List Bytes} (hne : args ≠ [])
      (hkeys : args.map RespValue.asBytes = keys.map some) : Takes .del args (.del keys)
  | exists {args : List RespValue} {keys : List Bytes} (hne : args ≠ [])
      (hkeys : args.map RespValue.asBytes = keys.map some) : Takes .exists args (.exists keys)
  | ping : Takes .ping [] (.ping none)
  | pingMessage (message : RespValue) : Takes .ping [message] (.ping message.asBytes)

end CommandName

/-- A non-empty Array whose first element is the name of a command up to ASCII case,
with the arguments of that command behind it. -/
inductive Recognises : RespValue → RespCommand → Prop where
  | mk {first : RespValue} {args : List RespValue} {bytes : Bytes} {name : CommandName}
      {cmd : RespCommand} (hbytes : first.asBytes = some bytes)
      (hname : bytes.map toAsciiUppercase = Utf8.encode name.word) (hargs : name.Takes args cmd) :
      Recognises (.array (some (first :: args))) cmd

/-- The same, with a first element whose text spells the name of the command. -/
inductive SpeltCommand : RespValue → List Char → RespCommand → Prop where
  | mk {first : RespValue} {args : List RespValue} {text : List Char} {name : CommandName}
      {cmd : RespCommand} (hbytes : first.asBytes = some (Utf8.encode text))
      (hname : Spells text name.word) (hargs : name.Takes args cmd) :
      SpeltCommand (.array (some (first :: args))) text cmd

/-- A command whose name is spelled with a character beyond ASCII. -/
def Misspelt (value : RespValue) : Prop :=
  ∃ (text : List Char) (cmd : RespCommand), SpeltCommand value text cmd ∧ ¬ Ascii text

/-! ## What is accepted -/

@[simp]
theorem okOr_eq_ok {α : Type} {x : Option α} {e : ProtocolError} {a : α} :
    okOr x e = .ok a ↔ x = some a := by
  cases x <;> simp [okOr]

theorem bind_eq_ok {α β : Type} {x : Except ProtocolError α} {f : α → Except ProtocolError β}
    {b : β} : (x >>= f) = .ok b ↔ ∃ a, x = .ok a ∧ f a = .ok b := by
  cases x with
  | error e => simp [bind, Except.bind]
  | ok a => simp [bind, Except.bind]

theorem okOr_bind_eq_ok {α β : Type} {x : Option α} {e : ProtocolError}
    {f : α → Except ProtocolError β} {b : β} :
    (okOr x e >>= f) = .ok b ↔ ∃ a, x = some a ∧ f a = .ok b := by
  simp only [bind_eq_ok, okOr_eq_ok]

namespace RespCommand

theorem parseGet_eq_ok {first : RespValue} {args : List RespValue} {cmd : RespCommand} :
    parseGet (first :: args) = .ok cmd ↔ CommandName.get.Takes args cmd := by
  constructor
  · intro h
    unfold parseGet at h
    split at h
    · next key heq =>
        obtain ⟨rfl, rfl⟩ := List.cons.inj heq
        obtain ⟨k, hkey, hcmd⟩ := okOr_bind_eq_ok.mp h
        obtain rfl := Except.ok.inj hcmd
        exact .get hkey
    · contradiction
  · intro h
    cases h with
    | get hkey => exact okOr_bind_eq_ok.mpr ⟨_, hkey, rfl⟩

theorem parseSet_eq_ok {first : RespValue} {args : List RespValue} {cmd : RespCommand} :
    parseSet (first :: args) = .ok cmd ↔ CommandName.set.Takes args cmd := by
  constructor
  · intro h
    unfold parseSet at h
    split at h
    · next key value heq =>
        obtain ⟨rfl, rfl⟩ := List.cons.inj heq
        obtain ⟨k, hkey, h⟩ := okOr_bind_eq_ok.mp h
        obtain ⟨v, hvalue, hcmd⟩ := okOr_bind_eq_ok.mp h
        obtain rfl := Except.ok.inj hcmd
        exact .set hkey hvalue
    · contradiction
  · intro h
    cases h with
    | set hkey hvalue =>
        exact okOr_bind_eq_ok.mpr ⟨_, hkey, okOr_bind_eq_ok.mpr ⟨_, hvalue, rfl⟩⟩

theorem mapM_okOr_eq_ok {args : List RespValue} {e : ProtocolError} {keys : List Bytes} :
    (args.mapM fun element => okOr element.asBytes e) = .ok keys ↔
      args.map RespValue.asBytes = keys.map some := by
  induction args generalizing keys with
  | nil =>
      cases keys with
      | nil => simp [pure, Except.pure]
      | cons k keys => simp [pure, Except.pure]
  | cons arg args ih =>
      rw [List.mapM_cons, okOr_bind_eq_ok]
      simp only [bind_eq_ok, ih, pure, Except.pure, Except.ok.injEq, List.map_cons]
      constructor
      · rintro ⟨k, harg, keys, hkeys, rfl⟩
        rw [harg, hkeys, List.map_cons]
      · intro h
        obtain ⟨k, keys, rfl, harg, hkeys⟩ := List.map_eq_cons_iff.mp h.symm
        exact ⟨k, harg.symm, keys, hkeys.symm, rfl⟩

theorem parseKeys_eq_ok {command : String} {build : List Bytes → RespCommand}
    {first : RespValue} {args : List RespValue} {cmd : RespCommand} :
    parseKeys command build (first :: args) = .ok cmd ↔
      args ≠ [] ∧ ∃ keys, args.map RespValue.asBytes = keys.map some ∧ build keys = cmd := by
  unfold parseKeys
  by_cases hargs : args = []
  · subst hargs
    simp
  · have hlength : ¬ (first :: args).length < 2 := by
      have hpos := List.length_pos_of_ne_nil hargs
      rw [List.length_cons]
      omega
    rw [if_neg hlength, bind_eq_ok, List.tail_cons]
    simp only [mapM_okOr_eq_ok, pure, Except.pure, Except.ok.injEq, ne_eq, hargs,
      not_false_eq_true, true_and]

theorem parsePing_eq_ok {first : RespValue} {args : List RespValue} {cmd : RespCommand} :
    parsePing (first :: args) = .ok cmd ↔ CommandName.ping.Takes args cmd := by
  constructor
  · intro h
    unfold parsePing at h
    split at h
    · next heq =>
        obtain ⟨rfl, rfl⟩ := List.cons.inj heq
        obtain rfl := Except.ok.inj h
        exact .ping
    · next message heq =>
        obtain ⟨rfl, rfl⟩ := List.cons.inj heq
        obtain rfl := Except.ok.inj h
        exact .pingMessage message
    · contradiction
  · intro h
    cases h with
    | ping => rfl
    | pingMessage message => rfl

theorem parseDel_eq_ok {first : RespValue} {args : List RespValue} {cmd : RespCommand} :
    parseDel (first :: args) = .ok cmd ↔ CommandName.del.Takes args cmd := by
  refine parseKeys_eq_ok.trans ⟨?_, fun h => ?_⟩
  · rintro ⟨hne, keys, hkeys, rfl⟩
    exact .del hne hkeys
  · cases h with
    | del hne hkeys => exact ⟨hne, _, hkeys, rfl⟩

theorem parseExists_eq_ok {first : RespValue} {args : List RespValue} {cmd : RespCommand} :
    parseExists (first :: args) = .ok cmd ↔ CommandName.exists.Takes args cmd := by
  refine parseKeys_eq_ok.trans ⟨?_, fun h => ?_⟩
  · rintro ⟨hne, keys, hkeys, rfl⟩
    exact .exists hne hkeys
  · cases h with
    | «exists» hne hkeys => exact ⟨hne, _, hkeys, rfl⟩

/-- The five arms of `from_value`, by the name they stand for. -/
def parseNamed : CommandName → List RespValue → Except ProtocolError RespCommand
  | .get => parseGet
  | .set => parseSet
  | .del => parseDel
  | .exists => parseExists
  | .ping => parsePing

theorem parseNamed_eq_ok (name : CommandName) {first : RespValue} {args : List RespValue}
    {cmd : RespCommand} : parseNamed name (first :: args) = .ok cmd ↔ name.Takes args cmd := by
  cases name with
  | get => exact parseGet_eq_ok
  | set => exact parseSet_eq_ok
  | del => exact parseDel_eq_ok
  | «exists» => exact parseExists_eq_ok
  | ping => exact parsePing_eq_ok

/-- Just the values whose first element spells a name, whatever the characters. -/
theorem fromValue_eq_ok {value : RespValue} {cmd : RespCommand} :
    fromValue value = .ok cmd ↔ ∃ text, SpeltCommand value text cmd := by
  constructor
  · intro hvalue
    obtain ⟨elements, helements, h⟩ := okOr_bind_eq_ok.mp hvalue
    obtain rfl := RespValue.intoArray_eq_some.mp helements
    cases elements with
    | nil => contradiction
    | cons first args =>
        obtain ⟨bytes, hbytes, h⟩ := okOr_bind_eq_ok.mp h
        obtain ⟨_, hutf8, h⟩ := okOr_bind_eq_ok.mp h
        obtain ⟨rfl, htext⟩ := Utf8.fromUtf8_eq_some.mp hutf8
        rw [← htext] at hbytes
        have hspelt : ∀ name : CommandName, toUppercase (Utf8.chars bytes) = name.word →
            parseNamed name (first :: args) = .ok cmd →
            ∃ text, SpeltCommand (.array (some (first :: args))) text cmd := by
          intro name hname hparse
          exact ⟨_, .mk hbytes ((toUppercase_eq_iff name.ascii_word).mp hname)
            ((parseNamed_eq_ok name).mp hparse)⟩
        split at h
        · next hname => exact hspelt .get hname h
        · next hname => exact hspelt .set hname h
        · next hname => exact hspelt .del hname h
        · next hname => exact hspelt .exists hname h
        · next hname => exact hspelt .ping hname h
        · contradiction
  · rintro ⟨text, hspelt⟩
    cases hspelt with
    | @mk first args _ name _ hbytes hname hargs =>
        have hparse : parseNamed name (first :: args) = .ok cmd := (parseNamed_eq_ok name).mpr hargs
        refine okOr_bind_eq_ok.mpr ⟨_, rfl, okOr_bind_eq_ok.mpr ⟨_, hbytes, ?_⟩⟩
        refine okOr_bind_eq_ok.mpr ⟨_, Utf8.fromUtf8_encode text, ?_⟩
        rw [Utf8.chars_encode, hname.toUppercase_eq]
        cases name <;> exact hparse

end RespCommand

/-! ## Both compared -/

theorem recognises_iff {value : RespValue} {cmd : RespCommand} :
    Recognises value cmd ↔ ∃ text, SpeltCommand value text cmd ∧ Ascii text := by
  constructor
  · rintro ⟨hbytes, hname, hargs⟩
    obtain ⟨text, htext, rfl, hword⟩ :=
      (map_toAsciiUppercase_eq_iff (CommandName.ascii_word _)).mp hname
    exact ⟨text, .mk hbytes ((spells_iff_of_ascii htext).mpr hword) hargs, htext⟩
  · rintro ⟨text, ⟨hbytes, hname, hargs⟩, htext⟩
    refine .mk hbytes ((map_toAsciiUppercase_eq_iff (CommandName.ascii_word _)).mpr ?_) hargs
    exact ⟨text, htext, rfl, (spells_iff_of_ascii htext).mp hname⟩

/-- The text of a name is given by its bytes. -/
theorem SpeltCommand.text_eq {value : RespValue} {text text' : List Char} {cmd cmd' : RespCommand}
    (h : SpeltCommand value text cmd) (h' : SpeltCommand value text' cmd') : text = text' := by
  obtain ⟨hbytes, _, _⟩ := h
  obtain ⟨hbytes', _, _⟩ := h'
  have heq : Utf8.encode text = Utf8.encode text' := Option.some.inj (hbytes.symm.trans hbytes')
  have hchars := congrArg Utf8.chars heq
  rwa [Utf8.chars_encode, Utf8.chars_encode] at hchars

/-- The reader accepts what is meant and nothing else unless the name is spelled
with a character beyond ASCII. -/
theorem fromValue_exact_iff (value : RespValue) :
    (∀ cmd, RespCommand.fromValue value = .ok cmd ↔ Recognises value cmd) ↔ ¬ Misspelt value := by
  simp only [RespCommand.fromValue_eq_ok, recognises_iff]
  constructor
  · rintro h ⟨text, cmd, hspelt, hnot⟩
    obtain ⟨text', hspelt', htext'⟩ := (h cmd).mp ⟨text, hspelt⟩
    exact hnot (hspelt.text_eq hspelt' ▸ htext')
  · intro hnot cmd
    constructor
    · rintro ⟨text, hspelt⟩
      exact ⟨text, hspelt, not_not.mp fun htext => hnot ⟨text, cmd, hspelt, htext⟩⟩
    · rintro ⟨text, hspelt, -⟩
      exact ⟨text, hspelt⟩

namespace Witness

/-- The command `SET k v` with a long s in its name. -/
def longSet : RespValue :=
  .array (some [.bulkString (some (Utf8.encode ['\u017f', 'e', 't'])), .bulkString (some [107]),
    .bulkString (some [118])])

theorem longSet_accepted : RespCommand.fromValue longSet = .ok (.set [107] [118]) ∧
    ¬ Recognises longSet (.set [107] [118]) := by
  refine ⟨rfl, fun h => ?_⟩
  cases h with
  | mk hbytes hname hargs =>
      obtain rfl := Option.some.inj hbytes
      cases hargs with
      | set hkey hvalue => exact absurd hname (by decide)

end Witness

end Seshat
