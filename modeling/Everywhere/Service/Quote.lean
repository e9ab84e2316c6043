import Mathlib

/-!
# Quoting

A service is installed with a command line in which paths are quoted (`quote`), and the system takes that line apart again
(`arguments`). Windows and systemd have different rules for it, and both read a line from left to right, so the rules are
the steps of a machine that has read part of a line.

* `quote_lossless` — **a quoted text is one argument**, whatever it is made of and whatever stands around it.
-/

namespace Everywhere.Service

/-- Characters between arguments. -/
def isBlank (c : Char) : Bool := c = ' ' || c = '\t'

namespace Windows

/-! ### Windows -/

/-- Quote the rest of a text after a number of backslashes. -/
def quoteRest : ℕ → List Char → List Char
  | backslashes, [] => List.replicate (backslashes * 2) '\\' ++ ['"']
  | backslashes, ch :: rest =>
    if ch = '\\' then quoteRest (backslashes + 1) rest
    else List.replicate (if ch = '"' then backslashes * 2 + 1 else backslashes) '\\' ++ ch :: quoteRest 0 rest

/-- Quote a text. -/
def quote (value : List Char) : List Char := '"' :: quoteRest 0 value

/-- The arguments with which the service is started. -/
def serviceArguments (state : List Char) : List Char :=
  "service run --parent-watch --state ".toList ++ quote state

/-- What is known of a line when part of it is read. -/
structure Reader where
  /-- The arguments that are complete. -/
  complete : List (List Char)
  /-- The argument that is being read. -/
  argument : Option (List Char)
  /-- The backslashes read last. -/
  backslashes : ℕ
  /-- Between quotes. -/
  quoted : Bool
  /-- The last character was a closing quote. -/
  closed : Bool
  deriving DecidableEq

namespace Reader

/-- Nothing but complete arguments is read. -/
def between (complete : List (List Char)) : Reader := ⟨complete, none, 0, false, false⟩

/-- The argument with some backslashes and characters more. -/
def extend (r : Reader) (backslashes : ℕ) (chars : List Char) : List Char :=
  r.argument.getD [] ++ List.replicate backslashes '\\' ++ chars

/-- Backslashes before a quote halve, and an odd one escapes it; others stand for themselves. A quote
after a closing one is a character. -/
def step (r : Reader) (c : Char) : Reader :=
  if c = '\\' then { r with argument := some (r.extend 0 []), backslashes := r.backslashes + 1, closed := false }
  else if c = '"' then
    if r.closed then { r with argument := some (r.extend 0 ['"']), quoted := true, closed := false }
    else if r.backslashes % 2 = 1 then
      { r with argument := some (r.extend (r.backslashes / 2) ['"']), backslashes := 0 }
    else
      { r with
        argument := some (r.extend (r.backslashes / 2) [])
        backslashes := 0
        quoted := !r.quoted
        closed := r.quoted }
  else if isBlank c ∧ r.quoted = false then
    match r.argument with
    | none => r
    | some _ => between (r.complete ++ [r.extend r.backslashes []])
  else { r with argument := some (r.extend r.backslashes [c]), backslashes := 0, closed := false }

/-- All arguments, at the end of the line. -/
def finish (r : Reader) : List (List Char) :=
  match r.argument with
  | none => r.complete
  | some _ => r.complete ++ [r.extend r.backslashes []]

end Reader

/-- Take a line apart. -/
def arguments (line : List Char) : List (List Char) := (line.foldl Reader.step (.between [])).finish

namespace Reader

theorem foldl_backslashes (complete : List (List Char)) (argument : List Char) (m n : ℕ) :
    (List.replicate n '\\').foldl step ⟨complete, some argument, m, true, false⟩ =
      ⟨complete, some argument, m + n, true, false⟩ := by
  induction n generalizing m with
  | zero => rfl
  | succ n ih =>
    rw [List.replicate_succ, List.foldl_cons]
    have hstep : step ⟨complete, some argument, m, true, false⟩ '\\' = ⟨complete, some argument, m + 1, true, false⟩ := by
      simp [step, extend]
    rw [hstep, ih]
    congr 1
    omega

/-- **What was quoted is read.** -/
theorem foldl_quoteRest (complete : List (List Char)) (argument rest : List Char) (n : ℕ) :
    (quoteRest n rest).foldl step ⟨complete, some argument, 0, true, false⟩ =
      ⟨complete, some (argument ++ List.replicate n '\\' ++ rest), 0, false, true⟩ := by
  induction rest generalizing n argument with
  | nil =>
    rw [quoteRest, List.foldl_append, foldl_backslashes]
    simp [step, extend]
  | cons ch rest ih =>
    rw [quoteRest]
    split_ifs with hslash hquote
    · rw [ih, hslash, List.replicate_succ']
      simp
    · rw [List.foldl_append, foldl_backslashes, List.foldl_cons]
      have hstep : step ⟨complete, some argument, 0 + (n * 2 + 1), true, false⟩ ch =
          ⟨complete, some (argument ++ List.replicate n '\\' ++ ['"']), 0, true, false⟩ := by
        have hdiv : (n * 2 + 1) / 2 = n := by omega
        simp [step, extend, hquote, hdiv, Nat.add_mod]
      rw [hstep, ih, hquote]
      simp
    · rw [List.foldl_append, foldl_backslashes, List.foldl_cons]
      have hstep : step ⟨complete, some argument, 0 + n, true, false⟩ ch =
          ⟨complete, some (argument ++ List.replicate n '\\' ++ [ch]), 0, true, false⟩ := by
        simp [step, extend, hslash, hquote]
      rw [hstep, ih]
      simp

theorem foldl_quote (complete : List (List Char)) (value : List Char) :
    (quote value).foldl step (between complete) = ⟨complete, some value, 0, false, true⟩ := by
  have hopen : step (between complete) '"' = ⟨complete, some [], 0, true, false⟩ := by simp [step, between, extend]
  rw [quote, List.foldl_cons, hopen, foldl_quoteRest]
  simp

/-- Complete arguments do not change how the rest is read. -/
def after (complete : List (List Char)) (r : Reader) : Reader := { r with complete := complete ++ r.complete }

theorem step_after (complete : List (List Char)) (r : Reader) (c : Char) :
    step (r.after complete) c = (step r c).after complete := by
  obtain ⟨done, argument, backslashes, quoted, closed⟩ := r
  by_cases hslash : c = '\\'
  · simp only [step, after, extend, if_pos hslash]
  by_cases hquote : c = '"'
  · by_cases hodd : backslashes % 2 = 1
    · cases closed <;> simp [step, after, extend, hquote, hodd]
    · cases closed <;> simp [step, after, extend, hquote, hodd]
  by_cases hblank : isBlank c = true ∧ quoted = false
  · obtain ⟨hc, rfl⟩ := hblank
    cases argument <;> simp [step, after, hslash, hquote, hc, between, extend]
  · simp [step, after, extend, hslash, hquote, hblank]

theorem finish_foldl_after (complete : List (List Char)) (r : Reader) (line : List Char) :
    (line.foldl step (r.after complete)).finish = complete ++ (line.foldl step r).finish := by
  induction line generalizing r with
  | nil =>
    obtain ⟨done, argument, backslashes, quoted, closed⟩ := r
    cases argument with
    | none => rfl
    | some a => simp [finish, after, extend]
  | cons c line ih =>
    rw [List.foldl_cons, List.foldl_cons, step_after]
    exact ih _

/-- A blank outside quotes ends an argument. -/
theorem step_blank {r : Reader} (hquoted : r.quoted = false) (hr : r.argument = none → r = between r.complete) {c : Char}
    (hc : isBlank c = true) : step r c = between r.finish := by
  have hslash : c ≠ '\\' := by
    rintro rfl
    exact absurd hc (by decide)
  have hquote : c ≠ '"' := by
    rintro rfl
    exact absurd hc (by decide)
  rw [step, if_neg hslash, if_neg hquote, if_pos ⟨hc, hquoted⟩, finish]
  cases harg : r.argument with
  | none => exact hr harg
  | some a => rfl

/-- Between arguments, nothing else is remembered. -/
theorem argument_foldl (line : List Char) : ∀ r : Reader, (r.argument = none → r = between r.complete) →
    (line.foldl step r).argument = none → line.foldl step r = between (line.foldl step r).complete := by
  induction line with
  | nil => exact fun r hr => hr
  | cons c line ih =>
    refine fun r hr => ih (step r c) fun hnone => ?_
    rw [step] at hnone ⊢
    split_ifs at hnone ⊢ with h1 h2 h3 h4 h5
    cases harg : r.argument with
    | none =>
      dsimp only
      exact hr harg
    | some a => rfl

end Reader

/-- The quotes in a text are closed at its end. -/
def Closed (text : List Char) : Prop := (text.foldl Reader.step (.between [])).quoted = false

instance (text : List Char) : Decidable (Closed text) := inferInstanceAs (Decidable (_ = _))

/-- A quoted text between two others. -/
theorem arguments_between {value before after : List Char} (hbefore : Closed before)
    (hafter : ∀ c ∈ after.head?, isBlank c = true) :
    arguments (before ++ ' ' :: (quote value ++ after)) = arguments before ++ value :: arguments after := by
  have hblank : Reader.step (before.foldl Reader.step (.between [])) ' ' = .between (arguments before) :=
    Reader.step_blank hbefore (Reader.argument_foldl before _ fun _ => rfl) (by decide)
  rw [arguments, List.foldl_append, List.foldl_cons, hblank, List.foldl_append, Reader.foldl_quote]
  cases after with
  | nil => simp [Reader.finish, Reader.extend, arguments, Reader.between]
  | cons c after =>
    have hc : isBlank c = true := hafter c (by simp)
    have hend : Reader.step ⟨arguments before, some value, 0, false, true⟩ c =
        (Reader.step (.between []) c).after (arguments before ++ [value]) := by
      rw [Reader.step_blank rfl (by simp) hc, Reader.step_blank rfl (fun _ => rfl) hc]
      simp [Reader.finish, Reader.extend, Reader.after, Reader.between]
    rw [List.foldl_cons, hend, Reader.finish_foldl_after, List.append_assoc]
    rfl

/-- The words of the command line of the service. -/
def serviceWords : List (List Char) :=
  ["service".toList, "run".toList, "--parent-watch".toList, "--state".toList]

/-- A quoted text at the end of a line. -/
theorem arguments_append_quote {line before value : List Char} (hline : line = before ++ [' ']) (hbefore : Closed before) :
    arguments (line ++ quote value) = arguments before ++ [value] := by
  have hnil : arguments [] = [] := by decide
  have h := @arguments_between value _ [] hbefore (by simp)
  rw [List.append_nil, hnil] at h
  rw [hline, List.append_assoc, List.singleton_append, h]

theorem arguments_service (state : List Char) : arguments (serviceArguments state) = serviceWords ++ [state] := by
  have hclosed : Closed "service run --parent-watch --state".toList := by decide +kernel
  have hwords : arguments "service run --parent-watch --state".toList = serviceWords := by decide +kernel
  have hline : "service run --parent-watch --state ".toList =
      "service run --parent-watch --state".toList ++ [' '] := by decide +kernel
  rw [← hwords]
  exact arguments_append_quote hline hclosed

theorem arguments_quote (value : List Char) : arguments (quote value) = [value] := by
  rw [arguments, Reader.foldl_quote]
  simp [Reader.finish, Reader.extend]

end Windows

namespace Linux

/-! ### Linux -/

/-- Write another text for a character, everywhere. -/
def replace (ch : Char) (text value : List Char) : List Char := value.flatMap fun c => if c = ch then text else [c]

/-- Quote a text. -/
def quote (value : List Char) : List Char :=
  '"' :: replace '%' ['%', '%'] (replace '"' ['\\', '"'] (replace '\\' ['\\', '\\'] value)) ++ ['"']

/-- The command with which the service is started. -/
def command (bootstrap state : List Char) : List Char :=
  ":/usr/bin/env -- ".toList ++ (quote bootstrap ++ (" service run --state ".toList ++ quote state))

/-- What is known of a line when part of it is read. -/
structure Reader where
  /-- The words that are complete. -/
  complete : List (List Char)
  /-- The word that is being read. -/
  word : Option (List Char)
  /-- The quote that is open. -/
  quote : Option Char
  /-- After a backslash. -/
  escaped : Bool
  /-- An escape that there is not was read. -/
  failed : Bool
  deriving DecidableEq

/-- The character that is written with a backslash. Those that are written as numbers are left out. -/
def unescape (c : Char) : Option Char :=
  [('a', Char.ofNat 7), ('b', Char.ofNat 8), ('f', Char.ofNat 12), ('n', '\n'), ('r', '\r'), ('t', '\t'),
    ('v', Char.ofNat 11), ('\\', '\\'), ('"', '"'), (Char.ofNat 39, Char.ofNat 39), ('s', ' ')].lookup c

/-- The characters that quote. -/
def isQuote (c : Char) : Bool := c = '"' || c = Char.ofNat 39

namespace Reader

/-- Nothing but complete words is read. -/
def between (complete : List (List Char)) : Reader := ⟨complete, none, none, false, false⟩

/-- The word with some characters more. -/
def extend (r : Reader) (chars : List Char) : Reader := { r with word := some (r.word.getD [] ++ chars) }

/-- A backslash escapes, also between quotes; blanks separate words outside quotes. -/
def step (r : Reader) (c : Char) : Reader :=
  if r.escaped then
    match unescape c with
    | some c' => { r.extend [c'] with escaped := false }
    | none => { r with failed := true }
  else if c = '\\' then { r.extend [] with escaped := true }
  else if r.quote = some c then { r.extend [] with quote := none }
  else if r.quote = none ∧ isQuote c then { r.extend [] with quote := some c }
  else if r.quote = none ∧ isBlank c then
    match r.word with
    | none => r
    | some w => { r with complete := r.complete ++ [w], word := none }
  else r.extend [c]

/-- All words, at the end of the line. -/
def finish (r : Reader) : Option (List (List Char)) :=
  if r.failed ∨ r.escaped ∨ r.quote ≠ none then none else some (r.complete ++ r.word.toList)

end Reader

/-- Specifiers: two percent signs stand for one. What the others stand for is left out. -/
def specifiers : List Char → Option (List Char)
  | [] => some []
  | ['%'] => none
  | '%' :: c :: rest => if c = '%' then (specifiers rest).map ('%' :: ·) else none
  | c :: rest => (specifiers rest).map (c :: ·)

/-- The words of a line. -/
def words (line : List Char) : Option (List (List Char)) := (line.foldl Reader.step (.between [])).finish

/-- Take a line apart. -/
def arguments (line : List Char) : Option (List (List Char)) := (words line).bind fun ws => ws.mapM specifiers

/-- What stands for a text in the words of a line. -/
def doubled (value : List Char) : List Char := replace '%' ['%', '%'] value

/-- What stands for a character between quotes. -/
def quoteChar (c : Char) : List Char :=
  if c = '\\' then ['\\', '\\'] else if c = '"' then ['\\', '"'] else if c = '%' then ['%', '%'] else [c]

theorem quote_eq (value : List Char) : quote value = '"' :: value.flatMap quoteChar ++ ['"'] := by
  have hinner : replace '%' ['%', '%'] (replace '"' ['\\', '"'] (replace '\\' ['\\', '\\'] value)) =
      value.flatMap quoteChar := by
    simp only [replace, List.flatMap_assoc]
    congr 1
    funext c
    rw [quoteChar]
    split_ifs with hslash hquote hpercent
    · decide
    · rw [hquote]
      decide
    · rw [hpercent]
      decide
    · simp [hquote, hpercent]
  rw [quote, hinner]

theorem specifiers_doubled (value : List Char) : specifiers (doubled value) = some value := by
  induction value with
  | nil => rfl
  | cons c value ih =>
    by_cases hc : c = '%'
    · subst hc
      change (specifiers (doubled value)).map ('%' :: ·) = _
      rw [ih]
      rfl
    · have hstep : doubled (c :: value) = c :: doubled value := by simp [doubled, replace, hc]
      rw [hstep, specifiers, ih]
      · rfl
      · exact fun h _ => hc h
      · exact fun _ _ h _ => hc h

namespace Reader

theorem foldl_quoteChar (complete : List (List Char)) (word : List Char) (c : Char) :
    (quoteChar c).foldl step ⟨complete, some word, some '"', false, false⟩ =
      ⟨complete, some (word ++ doubled [c]), some '"', false, false⟩ := by
  rw [quoteChar]
  split_ifs with hslash hquote hpercent
  · subst hslash
    simp [step, extend, unescape, doubled, replace, List.lookup]
  · subst hquote
    simp [step, extend, unescape, doubled, replace, List.lookup]
  · subst hpercent
    simp [step, extend, doubled, replace]
  · have hopen : (some '"' : Option Char) ≠ some c := by simpa using Ne.symm hquote
    simp [step, extend, doubled, replace, hslash, hpercent, Ne.symm hquote]

theorem foldl_flatMap (complete : List (List Char)) (word value : List Char) :
    (value.flatMap quoteChar).foldl step ⟨complete, some word, some '"', false, false⟩ =
      ⟨complete, some (word ++ doubled value), some '"', false, false⟩ := by
  induction value generalizing word with
  | nil => simp [doubled, replace]
  | cons c value ih =>
    have hcons : doubled (c :: value) = doubled [c] ++ doubled value := by simp [doubled, replace]
    rw [List.flatMap_cons, List.foldl_append, foldl_quoteChar, ih, hcons, List.append_assoc]

/-- **What was quoted is read**, with doubled percent signs. -/
theorem foldl_quote (complete : List (List Char)) (value : List Char) :
    (Linux.quote value).foldl step (between complete) = ⟨complete, some (doubled value), none, false, false⟩ := by
  have hopen : step (between complete) '"' = ⟨complete, some [], some '"', false, false⟩ := by
    simp [step, between, extend, isQuote]
  rw [quote_eq, List.cons_append, List.foldl_cons, hopen, List.foldl_append, foldl_flatMap]
  simp [step, extend]

/-- Complete words do not change how the rest is read. -/
def after (complete : List (List Char)) (r : Reader) : Reader := { r with complete := complete ++ r.complete }

theorem step_after (complete : List (List Char)) (r : Reader) (c : Char) :
    step (r.after complete) c = (step r c).after complete := by
  obtain ⟨done, word, quote, escaped, failed⟩ := r
  cases escaped with
  | true =>
    cases hc : unescape c <;> simp [step, after, extend, hc]
  | false =>
    by_cases hslash : c = '\\'
    · simp [step, after, extend, hslash]
    by_cases hclose : quote = some c
    · simp [step, after, extend, hslash, hclose]
    by_cases hopen : quote = none ∧ isQuote c = true
    · simp [step, after, extend, hslash, hopen]
    by_cases hblank : quote = none ∧ isBlank c = true
    · obtain ⟨rfl, hc⟩ := hblank
      have hquote : isQuote c = false := by simpa using hopen
      cases word <;> simp [step, after, hslash, hquote, hc]
    · simp [step, after, extend, hslash, hclose, hopen, hblank]

theorem finish_foldl_after (complete : List (List Char)) (r : Reader) (line : List Char) :
    (line.foldl step (r.after complete)).finish = (line.foldl step r).finish.map (complete ++ ·) := by
  induction line generalizing r with
  | nil =>
    rw [List.foldl_nil, List.foldl_nil, finish, finish, after]
    by_cases hbad : r.failed = true ∨ r.escaped = true ∨ r.quote ≠ none
    · rw [if_pos hbad, if_pos hbad]
      rfl
    · rw [if_neg hbad, if_neg hbad]
      simp
  | cons c line ih =>
    rw [List.foldl_cons, List.foldl_cons, step_after]
    exact ih _

/-- A blank ends a word. -/
theorem step_blank {r : Reader} {ws : List (List Char)} (h : r.finish = some ws) {c : Char} (hc : isBlank c = true) :
    step r c = between ws := by
  have hslash : c ≠ '\\' := by
    rintro rfl
    exact absurd hc (by decide)
  have hquote : isQuote c = false := by
    rcases (by simpa [isBlank] using hc : c = ' ' ∨ c = '\t') with rfl | rfl <;> decide
  obtain ⟨done, word, quote, escaped, failed⟩ := r
  rw [finish] at h
  split_ifs at h with hbad
  obtain rfl := Option.some.inj h
  obtain ⟨rfl, rfl, rfl⟩ : failed = false ∧ escaped = false ∧ quote = none := by simpa using hbad
  cases word <;> simp [step, between, hslash, hquote, hc]

end Reader

/-- A quoted text between two others, in words. -/
theorem words_between {value before after : List Char} {ws vs : List (List Char)} (hbefore : words before = some ws)
    (hafter : words after = some vs) (hhead : ∀ c ∈ after.head?, isBlank c = true) :
    words (before ++ ' ' :: (quote value ++ after)) = some (ws ++ doubled value :: vs) := by
  have hblank : Reader.step (before.foldl Reader.step (.between [])) ' ' = .between ws :=
    Reader.step_blank hbefore (by decide)
  rw [words, List.foldl_append, List.foldl_cons, hblank, List.foldl_append, Reader.foldl_quote]
  cases after with
  | nil =>
    have hvs : vs = [] := by simpa [words, Reader.finish, Reader.between] using hafter.symm
    simp [Reader.finish, hvs]
  | cons c after =>
    have hc : isBlank c = true := hhead c (by simp)
    have hfinish : Reader.finish ⟨ws, some (doubled value), none, false, false⟩ = some (ws ++ [doubled value]) := by
      simp [Reader.finish]
    have hnone : Reader.finish (.between []) = some [] := by decide
    have hend : Reader.step ⟨ws, some (doubled value), none, false, false⟩ c =
        (Reader.step (.between []) c).after (ws ++ [doubled value]) := by
      rw [Reader.step_blank hfinish hc, Reader.step_blank hnone hc]
      simp [Reader.after, Reader.between]
    rw [words, List.foldl_cons] at hafter
    rw [List.foldl_cons, hend, Reader.finish_foldl_after, hafter, Option.map_some, List.append_assoc]
    rfl

/-- A quoted text between two others. -/
theorem arguments_between {value before after : List Char} {a b : List (List Char)} (hbefore : arguments before = some a)
    (hafter : arguments after = some b) (hhead : ∀ c ∈ after.head?, isBlank c = true) :
    arguments (before ++ ' ' :: (quote value ++ after)) = some (a ++ value :: b) := by
  obtain ⟨ws, hws, ha⟩ := Option.bind_eq_some_iff.mp hbefore
  obtain ⟨vs, hvs, hb⟩ := Option.bind_eq_some_iff.mp hafter
  rw [arguments, words_between hws hvs hhead, Option.bind_some, List.mapM_append, List.mapM_cons, ha, hb,
    specifiers_doubled]
  rfl

theorem arguments_quote (value : List Char) : arguments (quote value) = some [value] := by
  have hwords : words (quote value) = some [doubled value] := by
    rw [words, Reader.foldl_quote]
    simp [Reader.finish]
  rw [arguments, hwords, Option.bind_some, List.mapM_cons, List.mapM_nil, specifiers_doubled]
  rfl

/-- The words of the command line of the service before the program. -/
def envWords : List (List Char) := [":/usr/bin/env".toList, "--".toList]

/-- The words of the command line of the service after the program. -/
def runWords : List (List Char) := ["service".toList, "run".toList, "--state".toList]

/-- A quoted text between two others, with what blanks there are given. -/
theorem arguments_append_quote {line before value after : List Char} {a b : List (List Char)}
    (hline : line = before ++ [' ']) (hbefore : arguments before = some a) (hafter : arguments after = some b)
    (hhead : ∀ c ∈ after.head?, isBlank c = true) :
    arguments (line ++ (quote value ++ after)) = some (a ++ value :: b) := by
  rw [hline, List.append_assoc, List.singleton_append]
  exact arguments_between hbefore hafter hhead

theorem arguments_command (bootstrap state : List Char) :
    arguments (command bootstrap state) = some (envWords ++ bootstrap :: (runWords ++ [state])) := by
  have henv : arguments ":/usr/bin/env --".toList = some envWords := by decide +kernel
  have hrun : arguments " service run --state".toList = some runWords := by decide +kernel
  have henvLine : ":/usr/bin/env -- ".toList = ":/usr/bin/env --".toList ++ [' '] := by decide +kernel
  have hrunLine : " service run --state ".toList = " service run --state".toList ++ [' '] := by decide +kernel
  have hhead : (" service run --state ".toList ++ quote state).head? = some ' ' := by
    rw [String.toList]
    rfl
  have hnil : arguments [] = some [] := by decide
  have hstate := @arguments_append_quote _ _ state [] _ _ hrunLine hrun hnil (by simp)
  rw [List.append_nil] at hstate
  refine arguments_append_quote henvLine henv hstate ?_
  rw [hhead]
  intro c hc
  obtain rfl := Option.some.inj hc
  decide

end Linux

/-- **A quoted text is one argument**: alone, and between two other texts, where the text that was quoted is read, and what
stands before and after it is read as if it stood alone. On Windows the quotes in the text before have to be closed, on Linux
the other texts have to be readable, and what follows begins with a blank. So are the paths in the command lines of the service
read. -/
theorem quote_lossless (value : List Char) :
    (Windows.arguments (Windows.quote value) = [value] ∧
      (∀ before after : List Char, Windows.Closed before → (∀ c ∈ after.head?, isBlank c = true) →
        Windows.arguments (before ++ ' ' :: (Windows.quote value ++ after)) =
          Windows.arguments before ++ value :: Windows.arguments after) ∧
      Windows.arguments (Windows.serviceArguments value) = Windows.serviceWords ++ [value]) ∧
    (Linux.arguments (Linux.quote value) = some [value] ∧
      (∀ (before after : List Char) (a b : List (List Char)), Linux.arguments before = some a →
        Linux.arguments after = some b → (∀ c ∈ after.head?, isBlank c = true) →
        Linux.arguments (before ++ ' ' :: (Linux.quote value ++ after)) = some (a ++ value :: b)) ∧
      ∀ bootstrap : List Char, Linux.arguments (Linux.command bootstrap value) =
        some (Linux.envWords ++ bootstrap :: (Linux.runWords ++ [value]))) := by
  refine ⟨⟨Windows.arguments_quote value, ?_, Windows.arguments_service value⟩, Linux.arguments_quote value, ?_, ?_⟩
  · intro before after hclosed hhead
    exact Windows.arguments_between hclosed hhead
  · intro before after a b hbefore hafter hhead
    exact Linux.arguments_between hbefore hafter hhead
  · intro bootstrap
    exact Linux.arguments_command bootstrap value

/-- Backslashes at the end and before a quote are read again, and what stands around them. -/
theorem quote_lossless_backslashes :
    Windows.arguments (['a'] ++ ' ' :: (Windows.quote ['x', '\\', '\\', '"', ' ', '\\'] ++ [' ', 'b'])) =
      Windows.arguments ['a'] ++ ['x', '\\', '\\', '"', ' ', '\\'] :: Windows.arguments [' ', 'b'] ∧
    Linux.arguments (['a'] ++ ' ' :: (Linux.quote ['x', '\\', '\\', '"', ' ', '\\'] ++ [' ', 'b'])) =
      some ([['a']] ++ ['x', '\\', '\\', '"', ' ', '\\'] :: [['b']]) :=
  have h := quote_lossless ['x', '\\', '\\', '"', ' ', '\\']
  have hhead : ∀ c ∈ [' ', 'b'].head?, isBlank c = true := by simp [isBlank]
  ⟨h.1.2.1 ['a'] [' ', 'b'] (by decide) hhead, h.2.2.1 ['a'] [' ', 'b'] [['a']] [['b']] (by decide) (by decide) hhead⟩

end Everywhere.Service
