/-
Inline commands: a line of plain text, split into tokens with blanks and quotes
respected.  How a list of tokens may be written is a relation of its own, and so
is a line that ends within quotes; the splitter is then run on every such line.
-/
import Seshat.Resp.Encoder

namespace Seshat

namespace InlineCommandParser

/-- `has_crlf_terminator`. -/
def hasCrlfTerminator (line : Bytes) : Bool :=
  let len := line.length
  2 ≤ len && line.getD (len - 2) 0 == 13 && line.getD (len - 1) 0 == 10

/-- A space or a tab. -/
def isBlank (ch : Char) : Bool :=
  ch == '\x20' || ch == '\x09'

/-- A double or a single quote. -/
def isQuote (ch : Char) : Bool :=
  ch == '\x22' || ch == '\x27'

/-- The locals of `split_inline_command`. -/
structure Splitter where
  tokens : List (List Char)
  currentToken : List Char
  inQuotes : Bool
  quoteChar : Char
deriving DecidableEq, Repr

namespace Splitter

/-- Between two tokens, outside quotes. -/
def idle (tokens : List (List Char)) : Splitter where
  tokens := tokens
  currentToken := []
  inQuotes := false
  quoteChar := '\x00'

def push (s : Splitter) (ch : Char) : Splitter :=
  { s with currentToken := s.currentToken ++ [ch] }

/-- The current token is complete, also when it is empty. -/
def emit (s : Splitter) : Splitter :=
  { s with tokens := s.tokens ++ [s.currentToken], currentToken := [] }

/-- Outside quotes an empty token does not count. -/
def settle (s : Splitter) : Splitter :=
  if s.currentToken.isEmpty then s else s.emit

def openQuotes (s : Splitter) (ch : Char) : Splitter :=
  { s with inQuotes := true, quoteChar := ch }

/-- The token of a quoted region is emitted at once. -/
def closeQuotes (s : Splitter) : Splitter :=
  { s with inQuotes := false, quoteChar := '\x00' }.emit

/-- The character behind a backslash; an unknown escape keeps both. -/
def unescape (s : Splitter) (nextCh : Char) : Splitter :=
  match nextCh with
  | 'n' => s.push '\x0a'
  | 't' => s.push '\x09'
  | 'r' => s.push '\x0d'
  | '\x5c' => s.push '\x5c'
  | '\x22' => s.push '\x22'
  | '\x27' => s.push '\x27'
  | _ => (s.push '\x5c').push nextCh

end Splitter

open Splitter

/-- The loop of `split_inline_command`, its arms in the order of the source. -/
def splitChars (s : Splitter) : List Char → Splitter
  | [] => s
  | ch :: chars =>
      if isBlank ch && !s.inQuotes then splitChars s.settle chars
      else if isQuote ch && !s.inQuotes then splitChars (s.openQuotes ch) chars
      else if isQuote ch && (s.inQuotes && ch == s.quoteChar) then
        splitChars s.closeQuotes chars
      else if ch == '\x5c' && s.inQuotes then
        match chars with
        | nextCh :: chars => splitChars (s.unescape nextCh) chars
        -- a backslash at the end of the line stands for itself
        | [] => s.push '\x5c'
      else splitChars (s.push ch) chars

/-- `split_inline_command`. -/
def splitInlineCommand (line : List Char) : Except ProtocolError (List (List Char)) :=
  let s := splitChars (idle []) line
  if s.inQuotes then .error .invalidLength
  else
    let tokens := s.settle.tokens
    if tokens.isEmpty then .error .emptyCommand else .ok tokens

/-- `InlineCommandParser::parse`. -/
def parse (line : Bytes) : Except ProtocolError RespValue :=
  if line.length < 2 then .error .invalidLength
  else if !hasCrlfTerminator line then .error .invalidLength
  else
    match Utf8.fromUtf8 (line.take (line.length - 2)) with
    | none => .error .utf8
    | some commandStr => do
        let tokens ← splitInlineCommand (Utf8.chars commandStr)
        return .array (some (tokens.map fun token => .bulkString (some (Utf8.encode token))))

/-! ## Writing a line -/

/-- Spaces and tabs. -/
def Blanks (text : List Char) : Prop :=
  ∀ ch ∈ text, isBlank ch = true

/-- What a character of a quoted token is written as. -/
inductive WritesChar (quote : Char) : Char → List Char → Prop where
  | raw {ch : Char} (hquote : ch ≠ quote) (hbackslash : ch ≠ '\x5c') :
      WritesChar quote ch [ch]
  | backslash : WritesChar quote '\x5c' ['\x5c', '\x5c']
  | quote : WritesChar quote quote ['\x5c', quote]
  | newline : WritesChar quote '\x0a' ['\x5c', 'n']
  | tab : WritesChar quote '\x09' ['\x5c', 't']
  | cr : WritesChar quote '\x0d' ['\x5c', 'r']

/-- The text between the quotes of a token. -/
inductive WritesBody (quote : Char) : List Char → List Char → Prop where
  | nil : WritesBody quote [] []
  | cons {ch : Char} {token text body : List Char} (hchar : WritesChar quote ch text)
      (hbody : WritesBody quote token body) : WritesBody quote (ch :: token) (text ++ body)

/-- A token is written bare or in quotes of either kind. -/
inductive WritesToken : List Char → List Char → Prop where
  | bare {token : List Char} (hne : token ≠ [])
      (hchars : ∀ ch ∈ token, isBlank ch = false ∧ isQuote ch = false) : WritesToken token token
  | quoted {quote : Char} {token body : List Char} (hquote : isQuote quote = true)
      (hbody : WritesBody quote token body) : WritesToken token (quote :: (body ++ [quote]))

/-- Tokens with blanks between them. -/
inductive WritesTokens : List (List Char) → List Char → Prop where
  | one {token text : List Char} (htoken : WritesToken token text) : WritesTokens [token] text
  | cons {token text blanks rest : List Char} {tokens : List (List Char)}
      (htoken : WritesToken token text) (hne : blanks ≠ []) (hblanks : Blanks blanks)
      (hrest : WritesTokens tokens rest) :
      WritesTokens (token :: tokens) (text ++ (blanks ++ rest))

/-- A line for a list of tokens, with blanks around it as well. -/
inductive WritesLine (tokens : List (List Char)) : List Char → Prop where
  | mk {leading text trailing : List Char} (hleading : Blanks leading)
      (htext : WritesTokens tokens text) (htrailing : Blanks trailing) :
      WritesLine tokens (leading ++ (text ++ trailing))

/-- Text that does not end a quoted region: a backslash takes the next character
along. -/
inductive Enclosed (quote : Char) : List Char → Prop where
  | nil : Enclosed quote []
  | char {ch : Char} {text : List Char} (hquote : ch ≠ quote) (hbackslash : ch ≠ '\x5c')
      (htext : Enclosed quote text) : Enclosed quote (ch :: text)
  | escape {ch : Char} {text : List Char} (htext : Enclosed quote text) :
      Enclosed quote ('\x5c' :: ch :: text)

/-- Text in which every quoted region is closed. -/
inductive Closed : List Char → Prop where
  | nil : Closed []
  | char {ch : Char} {text : List Char} (hquote : isQuote ch = false) (htext : Closed text) :
      Closed (ch :: text)
  | quoted {quote : Char} {body text : List Char} (hquote : isQuote quote = true)
      (hbody : Enclosed quote body) (htext : Closed text) :
      Closed (quote :: (body ++ quote :: text))

/-- A line that ends within quotes, perhaps just behind a backslash. -/
inductive EndsInQuotes : List Char → Prop where
  | mk {before body : List Char} {quote : Char} (hbefore : Closed before)
      (hquote : isQuote quote = true) (hbody : Enclosed quote body) :
      EndsInQuotes (before ++ quote :: body)
  | backslash {before body : List Char} {quote : Char} (hbefore : Closed before)
      (hquote : isQuote quote = true) (hbody : Enclosed quote body) :
      EndsInQuotes (before ++ quote :: (body ++ ['\x5c']))

/-! ## One character -/

namespace Splitter

/-- Within quotes of this kind. -/
structure Within (s : Splitter) (quote : Char) : Prop where
  inQuotes : s.inQuotes = true
  quoteChar : s.quoteChar = quote

theorem Within.push {s : Splitter} {quote : Char} (h : s.Within quote) (ch : Char) :
    (s.push ch).Within quote :=
  ⟨h.inQuotes, h.quoteChar⟩

theorem Within.unescape {s : Splitter} {quote : Char} (h : s.Within quote) (ch : Char) :
    (s.unescape ch).Within quote := by
  unfold Splitter.unescape
  split <;> exact ⟨h.inQuotes, h.quoteChar⟩

theorem within_openQuotes (s : Splitter) (quote : Char) : (s.openQuotes quote).Within quote :=
  ⟨rfl, rfl⟩

theorem unescape_quote {quote : Char} (hquote : isQuote quote = true) (s : Splitter) :
    s.unescape quote = s.push quote := by
  simp only [isQuote, Bool.or_eq_true, beq_iff_eq] at hquote
  rcases hquote with rfl | rfl <;> rfl

end Splitter

theorem not_isBlank_of_isQuote {ch : Char} (h : isQuote ch = true) : isBlank ch = false := by
  simp only [isQuote, Bool.or_eq_true, beq_iff_eq] at h
  rcases h with rfl | rfl <;> rfl

/-- The text takes the splitter from one state to the other, whatever comes behind it. -/
def Scans (s : Splitter) (text : List Char) (s' : Splitter) : Prop :=
  ∀ rest, splitChars s (text ++ rest) = splitChars s' rest

section Scans

variable {s s' s'' : Splitter} {text text' : List Char} {ch quote : Char}

theorem Scans.refl (s : Splitter) : Scans s [] s := fun _ => rfl

theorem Scans.trans (h : Scans s text s') (h' : Scans s' text' s'') :
    Scans s (text ++ text') s'' := by
  intro rest
  rw [List.append_assoc, h, h']

theorem Scans.splitChars_eq (h : Scans s text s') : splitChars s text = s' := by
  rw [← List.append_nil text, h]
  rfl

theorem scans_blank (hout : s.inQuotes = false) (hblank : isBlank ch = true) :
    Scans s [ch] s.settle := by
  intro rest
  rw [splitChars.eq_def]
  simp [hblank, hout]

theorem scans_open (hout : s.inQuotes = false) (hquote : isQuote ch = true) :
    Scans s [ch] (s.openQuotes ch) := by
  intro rest
  rw [splitChars.eq_def]
  simp [not_isBlank_of_isQuote hquote, hquote, hout]

theorem scans_close (hin : s.Within quote) (hquote : isQuote quote = true) :
    Scans s [quote] s.closeQuotes := by
  intro rest
  rw [splitChars.eq_def]
  simp [hin.inQuotes, hin.quoteChar, hquote]

theorem scans_escape (hin : s.Within quote) (ch : Char) :
    Scans s ['\x5c', ch] (s.unescape ch) := by
  intro rest
  rw [splitChars.eq_def]
  simp [show isQuote '\x5c' = false from rfl, hin.inQuotes]

theorem scans_push_out (hout : s.inQuotes = false) (hblank : isBlank ch = false)
    (hquote : isQuote ch = false) : Scans s [ch] (s.push ch) := by
  intro rest
  rw [splitChars.eq_def]
  simp [hblank, hquote, hout]

theorem scans_push_in (hin : s.Within quote) (hquote : ch ≠ quote) (hbackslash : ch ≠ '\x5c') :
    Scans s [ch] (s.push ch) := by
  intro rest
  rw [splitChars.eq_def]
  simp [hin.inQuotes, hin.quoteChar, hquote, hbackslash]

end Scans

/-! ## Tokens -/

namespace Splitter

/-- The current token with more characters behind it. -/
def extend (s : Splitter) (text : List Char) : Splitter :=
  { s with currentToken := s.currentToken ++ text }

@[simp]
theorem extend_nil (s : Splitter) : s.extend [] = s := by
  simp [extend]

@[simp]
theorem extend_push (s : Splitter) (ch : Char) (text : List Char) :
    (s.push ch).extend text = s.extend (ch :: text) := by
  simp [extend, push]

/-- Outside quotes, with these tokens read: the next blank or the end of the line
settles the last one. -/
structure HasRead (s : Splitter) (tokens : List (List Char)) : Prop where
  out : s.inQuotes = false
  settle : s.settle = idle tokens

theorem hasRead_idle (tokens : List (List Char)) : (idle tokens).HasRead tokens :=
  ⟨rfl, rfl⟩

end Splitter

section Quoted

variable {s : Splitter} {quote : Char}

theorem scans_writesChar (hquote : isQuote quote = true) (hin : s.Within quote) {ch : Char}
    {text : List Char} (h : WritesChar quote ch text) : Scans s text (s.push ch) := by
  cases h with
  | raw hne hbackslash => exact scans_push_in hin hne hbackslash
  | quote =>
      rw [← unescape_quote hquote s]
      exact scans_escape hin quote
  | backslash => exact scans_escape hin '\x5c'
  | newline => exact scans_escape hin 'n'
  | tab => exact scans_escape hin 't'
  | cr => exact scans_escape hin 'r'

theorem scans_writesBody (hquote : isQuote quote = true) (hin : s.Within quote)
    {token body : List Char} (h : WritesBody quote token body) :
    Scans s body (s.extend token) := by
  induction h generalizing s with
  | nil =>
      rw [extend_nil]
      exact .refl s
  | cons hchar hbody ih =>
      rw [← extend_push]
      exact (scans_writesChar hquote hin hchar).trans (ih (hin.push _))

/-- From the opening quote to the closing one. -/
theorem scans_quoted (hquote : isQuote quote = true) {token body : List Char}
    (h : WritesBody quote token body) (tokens : List (List Char)) :
    Scans (idle tokens) (quote :: (body ++ [quote])) (idle (tokens ++ [token])) := by
  have hin := within_openQuotes (idle tokens) quote
  have hbody := scans_writesBody hquote hin h
  have hclose : Scans ((idle tokens).openQuotes quote |>.extend token) [quote]
      (idle (tokens ++ [token])) := scans_close ⟨hin.inQuotes, hin.quoteChar⟩ hquote
  exact (scans_open rfl hquote).trans (hbody.trans hclose)

end Quoted

theorem scans_bare {s : Splitter} {token : List Char} (hout : s.inQuotes = false)
    (hchars : ∀ ch ∈ token, isBlank ch = false ∧ isQuote ch = false) :
    Scans s token (s.extend token) := by
  induction token generalizing s with
  | nil =>
      rw [extend_nil]
      exact .refl s
  | cons ch token ih =>
      obtain ⟨⟨hblank, hquote⟩, htoken⟩ := List.forall_mem_cons.mp hchars
      rw [← extend_push]
      exact (scans_push_out hout hblank hquote).trans (ih hout htoken)

theorem scans_writesToken (tokens : List (List Char)) {token text : List Char}
    (h : WritesToken token text) :
    ∃ s : Splitter, s.HasRead (tokens ++ [token]) ∧ Scans (idle tokens) text s := by
  cases h with
  | bare hne hchars =>
      refine ⟨(idle tokens).extend token, ⟨rfl, ?_⟩, scans_bare rfl hchars⟩
      simp [settle, extend, idle, emit, hne]
  | quoted hquote hbody => exact ⟨_, hasRead_idle _, scans_quoted hquote hbody tokens⟩

theorem scans_idle_blanks (tokens : List (List Char)) {blanks : List Char}
    (hblanks : Blanks blanks) : Scans (idle tokens) blanks (idle tokens) := by
  induction blanks with
  | nil => exact .refl _
  | cons ch blanks ih =>
      obtain ⟨hblank, hblanks⟩ := List.forall_mem_cons.mp hblanks
      exact (scans_blank rfl hblank).trans (ih hblanks)

section HasRead

variable {s : Splitter} {tokens : List (List Char)}

/-- The first blank settles the token before it. -/
theorem Splitter.HasRead.scans_blanks (h : s.HasRead tokens) {blanks : List Char}
    (hne : blanks ≠ []) (hblanks : Blanks blanks) : Scans s blanks (idle tokens) := by
  cases blanks with
  | nil => contradiction
  | cons ch blanks =>
      obtain ⟨hblank, hblanks⟩ := List.forall_mem_cons.mp hblanks
      have hfirst := scans_blank h.out hblank
      rw [h.settle] at hfirst
      exact hfirst.trans (scans_idle_blanks tokens hblanks)

theorem Splitter.HasRead.trailing (h : s.HasRead tokens) {blanks : List Char}
    (hblanks : Blanks blanks) : (splitChars s blanks).HasRead tokens := by
  by_cases hne : blanks = []
  · rw [hne]
    exact h
  · rw [(h.scans_blanks hne hblanks).splitChars_eq]
    exact hasRead_idle tokens

end HasRead

theorem scans_writesTokens (before : List (List Char)) {tokens : List (List Char)}
    {text : List Char} (h : WritesTokens tokens text) :
    ∃ s : Splitter, s.HasRead (before ++ tokens) ∧ Scans (idle before) text s := by
  induction h generalizing before with
  | one htoken => exact scans_writesToken before htoken
  | @cons token text blanks rest tokens htoken hne hblanks hrest ih =>
      obtain ⟨s, hs, hfirst⟩ := scans_writesToken before htoken
      obtain ⟨s', hs', hlater⟩ := ih (before ++ [token])
      refine ⟨s', by simpa using hs', ?_⟩
      exact hfirst.trans ((hs.scans_blanks hne hblanks).trans hlater)

theorem splitChars_writesLine {tokens : List (List Char)} {line : List Char}
    (h : WritesLine tokens line) : (splitChars (idle []) line).HasRead tokens := by
  obtain ⟨hleading, htext, htrailing⟩ := h
  obtain ⟨s, hs, hscans⟩ := scans_writesTokens [] htext
  rw [scans_idle_blanks [] hleading, hscans]
  exact hs.trailing htrailing

/-! ## Quoted regions -/

theorem scans_enclosed {s : Splitter} {quote : Char} {text : List Char}
    (h : Enclosed quote text) (hin : s.Within quote) :
    ∃ s' : Splitter, s'.Within quote ∧ Scans s text s' := by
  induction h generalizing s with
  | nil => exact ⟨s, hin, .refl s⟩
  | @char ch text hquote hbackslash htext ih =>
      obtain ⟨s', hs', hscans⟩ := ih (hin.push ch)
      exact ⟨s', hs', (scans_push_in hin hquote hbackslash).trans hscans⟩
  | @escape ch text htext ih =>
      obtain ⟨s', hs', hscans⟩ := ih (hin.unescape ch)
      exact ⟨s', hs', (scans_escape hin ch).trans hscans⟩

/-- Closed text leaves the splitter outside quotes. -/
theorem scans_closed {s : Splitter} {text : List Char} (h : Closed text)
    (hout : s.inQuotes = false) :
    ∃ s' : Splitter, s'.inQuotes = false ∧ Scans s text s' := by
  induction h generalizing s with
  | nil => exact ⟨s, hout, .refl s⟩
  | @char ch text hquote htext ih =>
      cases hblank : isBlank ch with
      | false =>
          obtain ⟨s', hs', hscans⟩ := ih (s := s.push ch) hout
          exact ⟨s', hs', (scans_push_out hout hblank hquote).trans hscans⟩
      | true =>
          have hsettle : s.settle.inQuotes = false := by
            unfold settle
            split <;> exact hout
          obtain ⟨s', hs', hscans⟩ := ih hsettle
          exact ⟨s', hs', (scans_blank hout hblank).trans hscans⟩
  | @quoted quote body text hquote hbody htext ih =>
      obtain ⟨s₁, hs₁, hregion⟩ := scans_enclosed hbody (within_openQuotes s quote)
      obtain ⟨s', hs', hscans⟩ := ih (s := s₁.closeQuotes) rfl
      refine ⟨s', hs', ?_⟩
      exact (scans_open hout hquote).trans (hregion.trans ((scans_close hs₁ hquote).trans hscans))

theorem splitChars_endsInQuotes {line : List Char} (h : EndsInQuotes line) :
    (splitChars (idle []) line).inQuotes = true := by
  cases h with
  | @mk before body quote hbefore hquote hbody =>
      obtain ⟨s, hs, hscans⟩ := scans_closed hbefore (s := idle []) rfl
      obtain ⟨s', hs', hregion⟩ := scans_enclosed hbody (within_openQuotes s quote)
      have hline := hscans.trans ((scans_open hs hquote).trans hregion)
      rw [show before ++ quote :: body = before ++ ([quote] ++ body) from rfl, hline.splitChars_eq]
      exact hs'.inQuotes
  | @backslash before body quote hbefore hquote hbody =>
      obtain ⟨s, hs, hscans⟩ := scans_closed hbefore (s := idle []) rfl
      obtain ⟨s', hs', hregion⟩ := scans_enclosed hbody (within_openQuotes s quote)
      have hline := hscans.trans ((scans_open hs hquote).trans hregion) ['\x5c']
      have heq : before ++ quote :: (body ++ ['\x5c']) =
          before ++ ([quote] ++ body) ++ ['\x5c'] := by simp
      rw [heq, hline]
      simp [splitChars, show isBlank '\x5c' = false from rfl, show isQuote '\x5c' = false from rfl,
        hs'.inQuotes, push]

/-- Behind an opening quote, the region is closed later on or the line ends in it. -/
theorem enclosed_or_split (quote : Char) (text : List Char) :
    Enclosed quote text ∨ (∃ body, Enclosed quote body ∧ text = body ++ ['\x5c']) ∨
      ∃ body rest, Enclosed quote body ∧ text = body ++ quote :: rest := by
  match text with
  | [] => exact Or.inl .nil
  | ch :: text =>
      by_cases hch : ch = quote
      · exact Or.inr (Or.inr ⟨[], text, .nil, by rw [hch]; rfl⟩)
      by_cases hback : ch = '\x5c'
      · subst hback
        match text with
        | [] => exact Or.inr (Or.inl ⟨[], .nil, rfl⟩)
        | next :: text =>
            obtain h | ⟨body, hbody, rfl⟩ | ⟨body, rest, hbody, rfl⟩ :=
              enclosed_or_split quote text
            · exact Or.inl h.escape
            · exact Or.inr (Or.inl ⟨_, hbody.escape, rfl⟩)
            · exact Or.inr (Or.inr ⟨_, rest, hbody.escape, rfl⟩)
      · obtain h | ⟨body, hbody, rfl⟩ | ⟨body, rest, hbody, rfl⟩ := enclosed_or_split quote text
        · exact Or.inl (h.char hch hback)
        · exact Or.inr (Or.inl ⟨_, hbody.char hch hback, rfl⟩)
        · exact Or.inr (Or.inr ⟨_, rest, hbody.char hch hback, rfl⟩)

theorem Closed.append {text text' : List Char} (h : Closed text) (h' : Closed text') :
    Closed (text ++ text') := by
  induction h with
  | nil => exact h'
  | char hquote htext ih => exact ih.char hquote
  | quoted hquote hbody htext ih =>
      rw [List.cons_append, List.append_assoc, List.cons_append]
      exact .quoted hquote hbody ih

theorem EndsInQuotes.after {text line : List Char} (htext : Closed text) (h : EndsInQuotes line) :
    EndsInQuotes (text ++ line) := by
  cases h with
  | mk hbefore hquote hbody =>
      rw [← List.append_assoc]
      exact .mk (htext.append hbefore) hquote hbody
  | backslash hbefore hquote hbody =>
      rw [← List.append_assoc]
      exact .backslash (htext.append hbefore) hquote hbody

/-- A line either closes every quoted region or ends in one. -/
theorem closed_or_endsInQuotes (line : List Char) : Closed line ∨ EndsInQuotes line := by
  induction hlength : line.length using Nat.strongRecOn generalizing line with
  | ind length ih =>
      cases line with
      | nil => exact Or.inl .nil
      | cons ch text =>
          rw [List.length_cons] at hlength
          cases hquote : isQuote ch with
          | false =>
              have hone : Closed [ch] := .char hquote .nil
              exact (ih text.length (by omega) text rfl).imp hone.append (EndsInQuotes.after hone)
          | true =>
              obtain h | ⟨body, hbody, rfl⟩ | ⟨body, rest, hbody, rfl⟩ :=
                enclosed_or_split ch text
              · exact Or.inr (.mk .nil hquote h)
              · exact Or.inr (.backslash .nil hquote hbody)
              · have hregion : Closed (ch :: (body ++ [ch])) := .quoted hquote hbody .nil
                have hshorter : rest.length < length := by
                  rw [List.length_append, List.length_cons] at hlength
                  omega
                have heq : ch :: (body ++ ch :: rest) = ch :: (body ++ [ch]) ++ rest := by simp
                rw [heq]
                exact (ih rest.length hshorter rest rfl).imp hregion.append
                  (EndsInQuotes.after hregion)

theorem splitChars_inQuotes_iff (line : List Char) :
    (splitChars (idle []) line).inQuotes = true ↔ EndsInQuotes line := by
  refine ⟨fun hin => (closed_or_endsInQuotes line).resolve_left fun hclosed => ?_,
    splitChars_endsInQuotes⟩
  obtain ⟨s, hs, hscans⟩ := scans_closed hclosed (s := idle []) rfl
  rw [hscans.splitChars_eq] at hin
  exact absurd (hs.symm.trans hin) Bool.false_ne_true

/-! ## The parser -/

theorem WritesLine.ne_nil {tokens : List (List Char)} {line : List Char}
    (h : WritesLine tokens line) : tokens ≠ [] := by
  obtain ⟨_, htext, _⟩ := h
  cases htext with
  | one htoken => simp
  | cons htoken hne hblanks hrest => simp

theorem splitInlineCommand_of_hasRead {line : List Char} {tokens : List (List Char)}
    (h : (splitChars (idle []) line).HasRead tokens) :
    splitInlineCommand line = if tokens.isEmpty then .error .emptyCommand else .ok tokens := by
  simp only [splitInlineCommand, h.out, h.settle, Bool.false_eq_true, ↓reduceIte]
  rfl

theorem splitInlineCommand_invalidLength_iff (line : List Char) :
    splitInlineCommand line = .error .invalidLength ↔
      (splitChars (idle []) line).inQuotes = true := by
  simp only [splitInlineCommand]
  by_cases hin : (splitChars (idle []) line).inQuotes = true
  · simp [hin]
  · rw [if_neg hin]
    refine ⟨fun h => ?_, fun h => absurd h hin⟩
    split at h <;> contradiction

theorem hasCrlfTerminator_append_crlf (text : Bytes) :
    hasCrlfTerminator (text ++ crlf) = true := by
  simp [hasCrlfTerminator, crlf]

/-- On a line of text only the splitter decides. -/
theorem parse_line (line : List Char) :
    parse (Utf8.encode line ++ crlf) = (splitInlineCommand line).map fun tokens =>
      .array (some (tokens.map fun token => .bulkString (some (Utf8.encode token)))) := by
  have hlength : (Utf8.encode line ++ crlf).length = (Utf8.encode line).length + 2 := by
    rw [List.length_append]
    rfl
  unfold parse
  rw [if_neg (by omega), hasCrlfTerminator_append_crlf, hlength, Nat.add_sub_cancel,
    List.take_left, Utf8.fromUtf8_encode]
  simp only [Bool.not_true, Bool.false_eq_true, ↓reduceIte, Utf8.chars_encode]
  cases splitInlineCommand line with
  | error e => rfl
  | ok tokens => rfl

/-- A list of tokens is read back from every line written for it, a line of blanks
is an empty command, and a line is of invalid length when it ends within quotes. -/
theorem parse_inline :
    (∀ (tokens : List (List Char)) (line : List Char), WritesLine tokens line →
      parse (Utf8.encode line ++ crlf) = .ok (.array (some (tokens.map fun token =>
        .bulkString (some (Utf8.encode token)))))) ∧
    (∀ line : List Char, Blanks line →
      parse (Utf8.encode line ++ crlf) = .error .emptyCommand) ∧
    ∀ line : List Char, parse (Utf8.encode line ++ crlf) = .error .invalidLength ↔
      EndsInQuotes line := by
  refine ⟨fun tokens line hline => ?_, fun line hblanks => ?_, fun line => ?_⟩
  · have htokens : ¬ tokens.isEmpty = true := by
      rw [List.isEmpty_iff]
      exact hline.ne_nil
    rw [parse_line, splitInlineCommand_of_hasRead (splitChars_writesLine hline), if_neg htokens]
    rfl
  · rw [parse_line, splitInlineCommand_of_hasRead ((hasRead_idle []).trailing hblanks)]
    rfl
  · rw [parse_line, ← splitChars_inQuotes_iff, ← splitInlineCommand_invalidLength_iff]
    cases splitInlineCommand line with
    | error e => simp [Except.map]
    | ok tokens => simp [Except.map]

end InlineCommandParser

namespace Witness

open InlineCommandParser

/-- The line `SET "a\"b" ''`, with a tab in front. -/
def quotedLine : List Char :=
  ['\x09', 'S', 'E', 'T', '\x20', '\x22', 'a', '\x5c', '\x22', 'b', '\x22', '\x20', '\x27', '\x27']

def quotedTokens : List (List Char) :=
  [['S', 'E', 'T'], ['a', '\x22', 'b'], []]

theorem quotedLine_written : WritesLine quotedTokens quotedLine := by
  have htab : Blanks ['\x09'] := by simp [Blanks, isBlank]
  have hspace : Blanks ['\x20'] := by simp [Blanks, isBlank]
  have hset : WritesToken ['S', 'E', 'T'] ['S', 'E', 'T'] :=
    .bare (by simp) (by simp [isBlank, isQuote])
  have hkey : WritesToken ['a', '\x22', 'b']
      ('\x22' :: (['a'] ++ (['\x5c', '\x22'] ++ (['b'] ++ [])) ++ ['\x22'])) :=
    .quoted rfl (.cons (.raw (by decide) (by decide)) (.cons .quote
      (.cons (.raw (by decide) (by decide)) .nil)))
  have hempty : WritesToken [] ('\x27' :: ([] ++ ['\x27'])) := .quoted rfl .nil
  exact WritesLine.mk htab (.cons hset (by decide) hspace (.cons hkey (by decide) hspace
    (.one hempty))) (fun ch hch => absurd hch List.not_mem_nil)

theorem quotedLine_parsed :
    parse (Utf8.encode quotedLine ++ crlf) = .ok (.array (some (quotedTokens.map fun token =>
        .bulkString (some (Utf8.encode token))))) ∧
      parse (Utf8.encode ['\x20', '\x09'] ++ crlf) = .error .emptyCommand ∧
      parse (Utf8.encode ['G', '\x27', 'a'] ++ crlf) = .error .invalidLength := by
  refine ⟨parse_inline.1 _ _ quotedLine_written, parse_inline.2.1 _ (by simp [Blanks, isBlank]), ?_⟩
  have hbefore : Closed ['G'] := .char rfl .nil
  exact (parse_inline.2.2 _).mpr (.mk hbefore rfl (.char (by decide) (by decide) .nil))

end Witness

end Seshat
