import LazyMachine.CommandLine.Repl
import LazyMachine.Proofs.Scanning
import Mathlib.Data.List.DropRight
import Mathlib.Data.List.TakeWhile

/-!
# Gathering lines

The evaluator gathers lines into a source until a line asks for no other one. It drops the blanks at
the end of each line, which the scanner would pass over, unless a literal is open there.

`Gathers` says which lines are gathered into which source. As long as no line ends with a backslash,
the source is made of the trimmed lines (`Gathers.source_eq`). If moreover a line on which a literal
is left open does not end with a blank, the trimmed lines and the lines themselves lead the scanner
to the same tokens (`scan_trimmed`, by induction on the lines), and so the source has the tokens of
the lines joined by line ends (`gathered_tokens`).
-/

namespace LazyMachine.Postfix

/-! ### Blanks at the end -/

section Blanks

variable {cs ds gap : List Char}

/-- Trimming drops the blanks at the end. -/
theorem trimEnd_eq_rdropWhile (cs : List Char) :
    Text.trimEnd cs = cs.rdropWhile Text.isBlank := rfl

/-- What is trimmed is blank. -/
theorem exists_trimEnd_append (cs : List Char) :
    ∃ gap, Blanks gap ∧ cs = Text.trimEnd cs ++ gap := by
  refine ⟨cs.rtakeWhile Text.isBlank, fun c hc => List.mem_rtakeWhile_imp hc, ?_⟩
  rw [trimEnd_eq_rdropWhile, List.rdropWhile_append_rtakeWhile]

/-- The last character of a trimmed text is the last one that is not blank. -/
theorem getLast?_trimEnd (cs : List Char) :
    (Text.trimEnd cs).getLast? = cs.reverse.find? (!Text.isBlank ·) := by
  rw [Text.trimEnd, List.getLast?_reverse, List.find?_not_eq_head?_dropWhile]

/-- The last character that is no blank is in the second part, or else in the first. -/
theorem getLast?_trimEnd_append (cs ds : List Char) :
    (Text.trimEnd (cs ++ ds)).getLast? =
      (Text.trimEnd ds).getLast?.or (Text.trimEnd cs).getLast? := by
  simp only [getLast?_trimEnd, List.reverse_append, List.find?_append]

/-- A backslash at the very end is not trimmed. -/
theorem getLast?_ne_slash (h : (Text.trimEnd cs).getLast? ≠ some '\\') :
    cs.getLast? ≠ some '\\' := by
  intro hlast
  obtain ⟨ds, rfl⟩ := List.getLast?_eq_some_iff.mp hlast
  exact h (by rw [getLast?_trimEnd_append]; rfl)

end Blanks

section Reading

variable {s s' : Scan} {c : Char} {cs gap rest : List Char} {ts : List Token} {q : Quote}
  {read : List Char}

/-- Only a backslash leads behind a backslash. -/
theorem Scan.eq_slash_of_next (h : s.next c = .ok (.escaped q read, ts)) : c = '\\' := by
  cases Scan.steps_of_next h with
  | escapes => rfl

/-- The scanner is behind a backslash only where the text ends with one. -/
theorem Scan.Reads.getLast?_of_escaped (h : s.Reads cs ts (.escaped q read)) (hcs : cs ≠ []) :
    cs.getLast? = some '\\' := by
  generalize hs' : Scan.escaped q read = s' at h
  induction h with
  | nil => exact absurd rfl hcs
  | @cons s s₁ s' c cs ts₁ ts hnext hrest ih =>
    subst hs'
    cases hrest with
    | nil =>
      rw [Scan.eq_slash_of_next hnext]
      rfl
    | @cons _ _ _ d ds =>
      rw [List.getLast?_cons_cons]
      exact ih (List.cons_ne_nil d ds) rfl

/-- A text that does not end with a backslash is read to a state that is not behind one. -/
theorem Scan.Reads.ne_escaped (h : Scan.between.Reads cs ts s')
    (hcs : cs.getLast? ≠ some '\\') : ∀ q read, s' ≠ .escaped q read := by
  rintro q read rfl
  by_cases hnil : cs = []
  · subst hnil
    cases h
  · exact hcs (h.getLast?_of_escaped hnil)

/-- Blanks in a literal belong to it. -/
theorem reads_literal_blanks (hgap : Blanks gap) :
    (Scan.literal q read).Reads gap [] (.literal q (gap.reverse ++ read)) := by
  induction gap generalizing read with
  | nil => exact .nil _
  | cons c cs ih =>
    obtain ⟨hc, hcs⟩ := List.forall_mem_cons.mp hgap
    have hslash : c ≠ '\\' := by
      rintro rfl
      cases hc
    have hmark : c ≠ q.mark := by
      rintro rfl
      rw [q.isBlank_mark] at hc
      cases hc
    have hnext : (Scan.literal q read).next c = .ok (.literal q (c :: read), []) := by
      simp only [Scan.next, if_neg hmark, if_neg hslash]
    rw [List.reverse_cons, List.append_assoc]
    exact .step hnext (ih hcs)

theorem head?_blank (hgap : Blanks gap) : ∀ c ∈ gap.head?, Text.isBlank c = true :=
  fun c hc => hgap c (List.mem_of_mem_head? hc)

/-- At the end of a source blanks do not matter, unless a backslash stands before them. -/
theorem Scan.scan_blanks (hs : ∀ q read, s ≠ .escaped q read) (hgap : Blanks gap) :
    scan s gap = scan s [] := by
  have hbetween : scan .between gap = scan .between [] := by
    have h := (reads_blanks hgap).scan_append []
    rwa [List.append_nil, map_nil_append] at h
  cases s with
  | between => exact hbetween
  | word read => rw [scan_word_end (head?_blank hgap), hbetween, scan_word_end (by simp)]
  | literal q read =>
    have hreads : (Scan.literal q read).Reads gap [] (.literal q (gap.reverse ++ read)) :=
      reads_literal_blanks hgap
    have h := hreads.scan_append []
    rwa [List.append_nil, map_nil_append] at h
  | escaped q read => exact absurd rfl (hs q read)

/-- Outside of literals blanks at the end of a line do not matter. -/
theorem Scan.scan_blanks_line (hs : ∀ q read, s ≠ .escaped q read)
    (hopen : ∀ q read, s ≠ .literal q read) (hgap : Blanks gap) (rest : List Char) :
    scan s (gap ++ '\n' :: rest) = scan s ('\n' :: rest) := by
  have hline : Blanks (gap ++ ['\n']) := by
    intro c hc
    rcases List.mem_append.mp hc with hc | hc
    · exact hgap c hc
    · rw [List.mem_singleton.mp hc]
      rfl
  have hsplit : gap ++ '\n' :: rest = (gap ++ ['\n']) ++ rest := by
    rw [List.append_assoc, List.singleton_append]
  have hbetween : scan .between (gap ++ '\n' :: rest) = scan .between ('\n' :: rest) := by
    rw [hsplit, (reads_blanks hline).scan_append, map_nil_append]
    rfl
  cases s with
  | between => exact hbetween
  | word read =>
    have hhead : ∀ c ∈ (gap ++ '\n' :: rest).head?, Text.isBlank c = true := by
      intro c hc
      rw [hsplit, List.head?_append_of_ne_nil _ (by simp)] at hc
      exact head?_blank hline c hc
    have hnewline : ∀ c ∈ ('\n' :: rest).head?, Text.isBlank c = true := by
      intro c hc
      cases hc
      rfl
    rw [scan_word_end hhead, scan_word_end hnewline, hbetween]
  | literal q read => exact absurd rfl (hopen q read)
  | escaped q read => exact absurd rfl (hs q read)

/-- Blanks behind a source that does not end with a backslash do not matter. -/
theorem scan_append_blanks (hcs : cs.getLast? ≠ some '\\') (hgap : Blanks gap) :
    scan .between (cs ++ gap) = scan .between cs := by
  obtain ⟨ts, s', hreads⟩ | ⟨e, -, he⟩ := Scan.reads_or_fails .between cs
  · have hend := hreads.scan_append []
    rw [List.append_nil] at hend
    rw [hreads.scan_append, hend, Scan.scan_blanks (hreads.ne_escaped hcs) hgap]
  · have hend := he []
    rw [List.append_nil] at hend
    rw [he, hend]

/-- A text leaves a literal open. -/
def LeavesOpen (cs : List Char) : Prop :=
  ∃ q, tokenize (String.ofList cs) = .error (.unterminated q)

/-- Blanks at the end of a line that leaves no literal open do not matter. -/
theorem scan_append_blanks_line (hcs : cs.getLast? ≠ some '\\') (hgap : Blanks gap)
    (hopen : LeavesOpen (cs ++ gap) → gap = []) (rest : List Char) :
    scan .between (cs ++ (gap ++ '\n' :: rest)) = scan .between (cs ++ '\n' :: rest) := by
  obtain ⟨ts, s', hreads⟩ | ⟨e, -, he⟩ := Scan.reads_or_fails .between cs
  · by_cases hliteral : ∃ q read, s' = .literal q read
    · obtain ⟨q, read, rfl⟩ := hliteral
      have hleaves : LeavesOpen (cs ++ gap) := by
        refine ⟨q, ?_⟩
        rw [tokenize, String.toList_ofList, hreads.scan_append,
          Scan.scan_blanks (hreads.ne_escaped hcs) hgap]
        rfl
      rw [hopen hleaves, List.nil_append]
    · have hclosed : ∀ q read, s' ≠ .literal q read := by
        rintro q read rfl
        exact hliteral ⟨q, read, rfl⟩
      rw [hreads.scan_append, hreads.scan_append,
        Scan.scan_blanks_line (hreads.ne_escaped hcs) hclosed hgap]
  · rw [he, he]

end Reading

/-! ### Lines -/

/-- Lines with a line end behind each of them. -/
def endLines (lines : List (List Char)) : List Char :=
  lines.flatMap (· ++ ['\n'])

/-- Lines with a line end between each two of them. -/
def joinLines (lines : List (List Char)) : List Char :=
  ['\n'].intercalate lines

/-- No line ends with a backslash, be there blanks behind it or not. -/
def Unslashed (lines : List (List Char)) : Prop :=
  ∀ line ∈ lines, (Text.trimEnd line).getLast? ≠ some '\\'

/-- The lines on which a literal is left open do not end with blanks. -/
def OpenTrimmed (lines : List (List Char)) : Prop :=
  ∀ before line after, lines = before ++ line :: after →
    LeavesOpen (endLines before ++ line) → Text.trimEnd line = line

section Lines

variable {line : List Char} {lines : List (List Char)}

/-- Line ends are put behind two lists of lines one after the other. -/
theorem endLines_append (lines lines' : List (List Char)) :
    endLines (lines ++ lines') = endLines lines ++ endLines lines' := by
  rw [endLines, List.flatMap_append]
  rfl

theorem endLines_singleton (line : List Char) : endLines [line] = line ++ ['\n'] := by
  simp [endLines]

/-- The last line has no line end. -/
theorem joinLines_concat (lines : List (List Char)) (line : List Char) :
    joinLines (lines ++ [line]) = endLines lines ++ line := by
  induction lines with
  | nil => simp [joinLines, endLines]
  | cons first lines ih =>
    have hcons : joinLines (first :: (lines ++ [line])) =
        first ++ '\n' :: joinLines (lines ++ [line]) := by
      cases lines <;> simp [joinLines, List.intercalate]
    rw [List.cons_append, hcons, ih]
    simp [endLines]

/-- Nothing is left to be trimmed. -/
theorem trimEnd_trimEnd (line : List Char) : Text.trimEnd (Text.trimEnd line) = Text.trimEnd line :=
  List.rdropWhile_idempotent Text.isBlank line

/-- Lines that end with no backslash, blanks aside, do so when they are trimmed. -/
theorem Unslashed.trimmed (h : Unslashed lines) : Unslashed (lines.map Text.trimEnd) := by
  intro trimmed htrimmed
  obtain ⟨line, hline, rfl⟩ := List.mem_map.mp htrimmed
  rw [trimEnd_trimEnd]
  exact h line hline

/-- The last character of the lines that is not blank is no backslash. -/
theorem Unslashed.getLast?_endLines (h : Unslashed lines) :
    (Text.trimEnd (endLines lines)).getLast? ≠ some '\\' := by
  induction lines with
  | nil => decide
  | cons line lines ih =>
    obtain ⟨hline, hlines⟩ := List.forall_mem_cons.mp h
    have hcons : endLines (line :: lines) = line ++ (['\n'] ++ endLines lines) := by
      simp [endLines]
    have hend : (Text.trimEnd ['\n']).getLast? = none := rfl
    rw [hcons, getLast?_trimEnd_append, getLast?_trimEnd_append, hend, Option.or_none]
    cases hlast : (Text.trimEnd (endLines lines)).getLast? with
    | none => exact hline
    | some c =>
      have hc := ih hlines
      rwa [hlast] at hc

/-- So is the last one of a line behind them. -/
theorem Unslashed.getLast?_append (h : Unslashed lines)
    (hline : (Text.trimEnd line).getLast? ≠ some '\\') :
    (endLines lines ++ Text.trimEnd line).getLast? ≠ some '\\' := by
  refine getLast?_ne_slash ?_
  rw [getLast?_trimEnd_append, trimEnd_trimEnd]
  cases hlast : (Text.trimEnd line).getLast? with
  | none => exact h.getLast?_endLines
  | some c => rwa [hlast] at hline

/-- The scanner is led to the same tokens by lines and by the trimmed lines, whatever follows. -/
theorem scan_trimmed (hslash : Unslashed lines) (hopen : OpenTrimmed lines) (rest : List Char) :
    scan .between (endLines (lines.map Text.trimEnd) ++ rest) =
      scan .between (endLines lines ++ rest) := by
  -- the last line is compared behind the lines themselves, so that it is known what is open there
  induction lines using List.reverseRecOn generalizing rest with
  | nil => rfl
  | append_singleton lines line ih =>
    have hslash' : Unslashed lines := fun l hl => hslash l (List.mem_append_left [line] hl)
    have hopen' : OpenTrimmed lines := by
      rintro before l after rfl hl
      exact hopen before l (after ++ [line]) (by simp) hl
    have hline := hslash line (List.mem_append_right lines (List.mem_singleton_self line))
    obtain ⟨gap, hgap, hsplit⟩ := exists_trimEnd_append line
    have htrim : LeavesOpen (endLines lines ++ Text.trimEnd line ++ gap) → gap = [] := by
      intro hleaves
      rw [List.append_assoc, ← hsplit] at hleaves
      have hkept := hopen lines line [] rfl hleaves
      rw [hkept] at hsplit
      exact List.self_eq_append_right.mp hsplit
    have hgather := ih hslash' hopen' (Text.trimEnd line ++ '\n' :: rest)
    have hblanks := scan_append_blanks_line (hslash'.getLast?_append hline) hgap htrim rest
    calc scan .between (endLines ((lines ++ [line]).map Text.trimEnd) ++ rest)
        = scan .between (endLines (lines.map Text.trimEnd) ++
            (Text.trimEnd line ++ '\n' :: rest)) := by
          simp [endLines]
      _ = scan .between (endLines lines ++ (Text.trimEnd line ++ '\n' :: rest)) := hgather
      _ = scan .between (endLines lines ++ Text.trimEnd line ++ (gap ++ '\n' :: rest)) := by
          rw [hblanks, List.append_assoc]
      _ = scan .between (endLines (lines ++ [line]) ++ rest) := by
          rw [endLines_append, endLines_singleton]
          conv_rhs => rw [hsplit]
          simp

/-- Lines that are gathered behind a text into one source. Each of them but the last asks for
another line; the source is complete, or the input ends. -/
inductive Gathers : List Char → List (List Char) → (complete : Bool) → List Char → Prop
  | complete {text line source : List Char} (h : gather text line = .complete source) :
      Gathers text [line] true source
  | ended {text line source : List Char} (h : gather text line = .more source) :
      Gathers text [line] false source
  | more {text line next source : List Char} {lines : List (List Char)} {complete : Bool}
      (h : gather text line = .more next) (hrest : Gathers next lines complete source) :
      Gathers text (line :: lines) complete source

/-- A line that does not end with a backslash is added without the blanks at its end. -/
theorem gather_eq (text : List Char) (hline : (Text.trimEnd line).getLast? ≠ some '\\') :
    gather text line =
      if needsMore (text ++ endLines [Text.trimEnd line])
      then .more (text ++ endLines [Text.trimEnd line])
      else .complete (text ++ endLines [Text.trimEnd line]) := by
  rw [endLines_singleton, ← List.append_assoc]
  simp [gather, hline]

/-- A gathered source is made of the trimmed lines. -/
theorem Gathers.source_eq {text source : List Char} {complete : Bool}
    (h : Gathers text lines complete source) (hslash : Unslashed lines) :
    source = text ++ endLines (lines.map Text.trimEnd) := by
  induction h with
  | @complete text line source h =>
    rw [gather_eq text (hslash line (List.mem_singleton_self line))] at h
    split at h
    · cases h
    · cases h
      rfl
  | @ended text line source h =>
    rw [gather_eq text (hslash line (List.mem_singleton_self line))] at h
    split at h
    · cases h
      rfl
    · cases h
  | @more text line next source lines complete h _ ih =>
    obtain ⟨hline, hlines⟩ := List.forall_mem_cons.mp hslash
    rw [gather_eq text hline] at h
    split at h
    · cases h
      rw [ih hlines, List.append_assoc, ← endLines_append]
      rfl
    · cases h

/-- No source is gathered from nothing. -/
theorem Gathers.ne_nil {text source : List Char} {complete : Bool}
    (h : Gathers text lines complete source) : lines ≠ [] := by
  cases h <;> exact List.cons_ne_nil _ _

/-- Trimming does not change the tokens of a source that does not end with a backslash. -/
theorem tokenize_trimEnd {text : List Char} (h : (Text.trimEnd text).getLast? ≠ some '\\') :
    tokenize (String.ofList (Text.trimEnd text)) = tokenize (String.ofList text) := by
  obtain ⟨gap, hgap, hsplit⟩ := exists_trimEnd_append text
  rw [tokenize, tokenize, String.toList_ofList, String.toList_ofList, ← scan_append_blanks h hgap,
    ← hsplit]

/-- The source has the tokens of the joined lines. The last line may end with blanks in any case:
a literal that is open there is not terminated with or without them. -/
theorem Gathers.tokenize_eq {source : List Char} {complete : Bool}
    (h : Gathers [] lines complete source) (hslash : Unslashed lines)
    (hopen : OpenTrimmed lines.dropLast) :
    tokenize (String.ofList (Text.trimEnd source)) =
      tokenize (String.ofList (joinLines lines)) := by
  obtain rfl : source = endLines (lines.map Text.trimEnd) := h.source_eq hslash
  rw [tokenize_trimEnd hslash.trimmed.getLast?_endLines]
  obtain hnil | ⟨init, last, rfl⟩ := List.eq_nil_or_concat' lines
  · exact absurd hnil h.ne_nil
  · rw [List.dropLast_concat] at hopen
    have hinit : Unslashed init := fun line hline => hslash line (List.mem_append_left [last] hline)
    have hlast := hslash last (List.mem_append_right init (List.mem_singleton_self last))
    obtain ⟨gap, hgap, hsplit⟩ := exists_trimEnd_append last
    have hnewline : Blanks ['\n'] := by
      simp only [Blanks, List.forall_mem_singleton]
      rfl
    have hend := hinit.getLast?_append hlast
    simp only [tokenize, String.toList_ofList]
    -- blanks go between words, and a line end may be dropped like any other blank
    calc scan .between (endLines ((init ++ [last]).map Text.trimEnd))
        = scan .between (endLines (init.map Text.trimEnd) ++ (Text.trimEnd last ++ ['\n'])) := by
          simp [endLines]
      _ = scan .between (endLines init ++ Text.trimEnd last ++ ['\n']) := by
          rw [scan_trimmed hinit hopen, List.append_assoc]
      _ = scan .between (endLines init ++ Text.trimEnd last ++ gap) := by
          rw [scan_append_blanks hend hnewline, scan_append_blanks hend hgap]
      _ = scan .between (joinLines (init ++ [last])) := by
          rw [joinLines_concat, List.append_assoc, ← hsplit]

/-- The joined lines end like the lines with line ends. -/
theorem Unslashed.getLast?_joinLines (h : Unslashed lines) :
    (Text.trimEnd (joinLines lines)).getLast? ≠ some '\\' := by
  obtain rfl | ⟨init, last, rfl⟩ := List.eq_nil_or_concat' lines
  · decide
  · have hlast := h.getLast?_endLines
    have hend : (Text.trimEnd ['\n']).getLast? = none := rfl
    rwa [endLines_append, endLines_singleton, ← List.append_assoc, getLast?_trimEnd_append, hend,
      Option.none_or, ← joinLines_concat] at hlast

/-- A source without tokens is blank. -/
theorem tokenize_eq_nil_iff (text : List Char) :
    tokenize (String.ofList text) = .ok [] ↔ Blanks text := by
  rw [tokenize, String.toList_ofList]
  constructor
  · intro h
    obtain ⟨-, hrendering⟩ : Renders [] text := Scan.completes_of_scan h
    cases hrendering with
    | blanks hgap => exact hgap
  · intro h
    exact Rendering.scan_eq (.blanks h) fun _ ht => absurd ht List.not_mem_nil

end Lines

end LazyMachine.Postfix

namespace LazyMachine.CommandLine

open Postfix

theorem Result.after_nothing (r : Result) : r.after {} = r := by
  simp [Result.after]

namespace Repl

variable {level : Nat} {settings : Settings} {text source : List Char} {input : List (List Char)}

/-- Nothing is left of blanks. -/
theorem trim_isEmpty_iff (text : List Char) : (Text.trim text).isEmpty = true ↔ Blanks text := by
  rw [List.isEmpty_iff, Text.trim, trimEnd_eq_rdropWhile, List.rdropWhile_eq_nil_iff]
  constructor
  · intro h c hc
    have hsplit : text.takeWhile Text.isBlank ++ text.dropWhile Text.isBlank = text :=
      List.takeWhile_append_dropWhile
    rcases List.mem_append.mp (hsplit ▸ hc) with hc | hc
    · exact List.mem_takeWhile_imp hc
    · exact h c hc
  · intro h c hc
    exact h c ((List.dropWhile_sublist Text.isBlank).subset hc)

/-- Only the tokens of a source matter. -/
theorem evaluateSource_congr {text' : List Char}
    (h : tokenize (String.ofList (Text.trimEnd text)) =
      tokenize (String.ofList (Text.trimEnd text'))) :
    evaluateSource level settings text = evaluateSource level settings text' := by
  have hcompile : compileSource (String.ofList (Text.trimEnd text)) =
      compileSource (String.ofList (Text.trimEnd text')) := by
    rw [compileSource, compile, h]
    rfl
  have hblank : (Text.trim (Text.trimEnd text)).isEmpty =
      (Text.trim (Text.trimEnd text')).isEmpty := by
    rw [Bool.eq_iff_iff, trim_isEmpty_iff, trim_isEmpty_iff, ← tokenize_eq_nil_iff,
      ← tokenize_eq_nil_iff, h]
  simp only [evaluateSource, hcompile, hblank]

/-- The line is read as a command where a source starts. -/
def isCommand (line : List Char) : Bool :=
  (String.ofList (Text.trimEnd (applyBackspaces line))).startsWith ":"

/-- Where a source goes on, or no command is given, the line is gathered. -/
theorem advance_eq {line : List Char} (hline : text = [] → isCommand line = false) :
    advance level settings text line =
      match Postfix.gather text (applyBackspaces line) with
      | .more text => .next text {}
      | .complete text => .next [] (evaluateSource level settings text) := by
  have hskip : (text.isEmpty && isCommand line) = false := by
    cases text with
    | nil => exact hline rfl
    | cons c cs => rfl
  rw [isCommand] at hskip
  simp only [advance, hskip]
  rfl

/-- Lines are asked for only when something has been read. -/
theorem ne_nil_of_more {line next : List Char} (h : Postfix.gather text line = .more next) :
    next ≠ [] := by
  simp only [Postfix.gather] at h
  split at h
  · cases h
    simp
  · split at h
    · cases h
      simp
    · cases h

/-- The input is answered by the evaluation of the source that its lines are gathered into, and then
of what follows them. -/
theorem runFrom_of_gathers (level : Nat) (settings : Settings) {complete : Bool}
    (h : Gathers text (input.map applyBackspaces) complete source)
    (hcommand : text = [] → ∀ line ∈ input.head?, isCommand line = false) :
    if complete then
      ∀ rest, runFrom level settings text (input ++ rest) =
        (runFrom level settings [] rest).after (evaluateSource level settings source)
    else runFrom level settings text input = finish level settings source := by
  generalize hlines : input.map applyBackspaces = lines at h
  -- on how the lines are gathered: each line but the last one asks for more
  induction h generalizing input with
  | complete h =>
    obtain ⟨line, rfl, rfl⟩ := List.map_eq_singleton_iff.mp hlines
    intro rest
    rw [List.singleton_append, runFrom, advance_eq fun htext => hcommand htext line rfl, h]
  | ended h =>
    obtain ⟨line, rfl, rfl⟩ := List.map_eq_singleton_iff.mp hlines
    show runFrom level settings _ [line] = _
    rw [runFrom, advance_eq fun htext => hcommand htext line rfl, h]
    exact Result.after_nothing _
  | @more text _ next source lines complete h _ ih =>
    obtain ⟨line, input, rfl, rfl, hinput⟩ := List.map_eq_cons_iff.mp hlines
    have hfirst : text = [] → isCommand line = false := fun htext => hcommand htext line rfl
    have hrun := ih (fun hnil => absurd hnil (ne_nil_of_more h)) hinput
    cases complete with
    | true =>
      intro rest
      rw [List.cons_append, runFrom, advance_eq hfirst, h]
      exact (Result.after_nothing _).trans (hrun rest)
    | false =>
      show runFrom level settings text (line :: input) = _
      rw [runFrom, advance_eq hfirst, h]
      exact (Result.after_nothing _).trans hrun

/-- Lines that are gathered into a source are evaluated as the lines joined by line ends: the text
handed on has their tokens, and the answer is that to the joined lines. No line may end with a
backslash, and none with a blank on which a literal is left open to be continued. -/
theorem gathered_tokens {complete : Bool}
    (hgathers : Gathers [] (input.map applyBackspaces) complete source)
    (hcommand : ∀ line ∈ input.head?, isCommand line = false)
    (hslash : Unslashed (input.map applyBackspaces))
    (hopen : OpenTrimmed (input.map applyBackspaces).dropLast) :
    tokenize (String.ofList (Text.trimEnd source)) =
        tokenize (String.ofList (joinLines (input.map applyBackspaces))) ∧
      ∀ level settings,
        if complete then
          ∀ rest, runFrom level settings [] (input ++ rest) = (runFrom level settings [] rest).after
            (evaluateSource level settings (joinLines (input.map applyBackspaces)))
        else
          runFrom level settings [] input =
            finish level settings (joinLines (input.map applyBackspaces)) := by
  have htokens := hgathers.tokenize_eq hslash hopen
  refine ⟨htokens, fun level settings => ?_⟩
  have hsame : evaluateSource level settings source =
      evaluateSource level settings (joinLines (input.map applyBackspaces)) := by
    refine evaluateSource_congr ?_
    rw [htokens, tokenize_trimEnd hslash.getLast?_joinLines]
  have hrun := runFrom_of_gathers level settings hgathers fun _ => hcommand
  rw [finish, hsame, ← finish] at hrun
  exact hrun

/-- A string over two lines, the second of which starts with blanks. -/
def spreadLines : List (List Char) :=
  ["1L \"a:".toList, "  b\" len ".toList]

theorem gathered_tokens_spreadLines :
    Gathers [] (spreadLines.map applyBackspaces) true "1L \"a:\n  b\" len\n".toList ∧
      (∀ line ∈ spreadLines.head?, isCommand line = false) ∧
      Unslashed (spreadLines.map applyBackspaces) ∧
      OpenTrimmed (spreadLines.map applyBackspaces).dropLast ∧
      tokenize (String.ofList (Text.trimEnd "1L \"a:\n  b\" len\n".toList)) =
        tokenize (String.ofList (joinLines (spreadLines.map applyBackspaces))) := by
  have hlines : spreadLines.map applyBackspaces = spreadLines := by decide +kernel
  rw [hlines]
  have hgathers : Gathers [] spreadLines true "1L \"a:\n  b\" len\n".toList := by
    have hfirst : Postfix.gather [] "1L \"a:".toList = .more "1L \"a:\n".toList := by decide +kernel
    exact .more hfirst (.complete (by decide +kernel))
  have hcommand : ∀ line ∈ spreadLines.head?, isCommand line = false := by
    intro line hline
    cases hline
    decide +kernel
  have hslash : Unslashed spreadLines := by
    intro line hline
    rcases List.mem_pair.mp hline with rfl | rfl <;> decide +kernel
  have hopen : OpenTrimmed spreadLines.dropLast := by
    intro before line after hsplit _
    -- only the first line is continued
    cases before with
    | nil =>
      cases hsplit
      decide +kernel
    | cons first before =>
      have hrest : [] = before ++ line :: after := (List.cons.inj hsplit).2
      simp at hrest
  refine ⟨hgathers, hcommand, hslash, hopen, ?_⟩
  rw [← hlines] at hgathers hslash hopen
  have h := gathered_tokens hgathers hcommand hslash hopen
  rw [hlines] at h
  exact h.1

/-- A string over two lines, the first of which ends with blanks. -/
def frayedLines : List (List Char) :=
  ["\"a  ".toList, "b\" len".toList]

/-- Blanks at the end of a line on which a string is open are lost. -/
theorem gather_drops_blanks :
    Gathers [] frayedLines true "\"a\nb\" len\n".toList ∧ Unslashed frayedLines ∧
      tokenize (String.ofList (Text.trimEnd "\"a\nb\" len\n".toList)) =
        .ok [.str "a\nb", .word "len"] ∧
      tokenize (String.ofList (joinLines frayedLines)) = .ok [.str "a  \nb", .word "len"] := by
  have hfirst : Postfix.gather [] "\"a  ".toList = .more "\"a\n".toList := by decide +kernel
  refine ⟨.more hfirst (.complete (by decide +kernel)), ?_, ?_, ?_⟩
  · intro line hline
    rcases List.mem_pair.mp hline with rfl | rfl <;> decide +kernel
  · rfl
  · rfl

end Repl

end LazyMachine.CommandLine
