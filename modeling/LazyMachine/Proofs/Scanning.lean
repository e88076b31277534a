import LazyMachine.Postfix.Token

/-!
# Scanning and spelling tokens

The scanner reads one character after the other. `Scan.next` is one step of it, which gives the
tokens that the character completes; `Scan.Steps` lists what such a step may be. `Scan.Reads` is a
run of steps, so that what follows a part of a source that has been read is scanned from the state
it is left in (`Scan.Reads.scan_append`).

Tokens are spelled with some freedom: characters of a literal may be escaped, and blanks may stand
between tokens. `Rendering tokens cs` says that `cs` spells the tokens, and `tokenize_eq_ok_iff`
that the tokens of a source are exactly those that it spells.
-/

namespace LazyMachine.Postfix

/-! ### The scanner step by step -/

/-- What a character makes of the token under way, and the tokens that it completes. -/
def Scan.next : Scan → Char → Except Error (Scan × List Token)
  | .between, c =>
    if Text.isBlank c then .ok (.between, [])
    else
      match Quote.ofMark? c with
      | some q => .ok (.literal q [], [])
      | none => .ok (.word [c], [])
  | .word read, c =>
    if Text.isBlank c then .ok (.between, [.word (String.ofList read.reverse)])
    else .ok (.word (c :: read), [])
  | .literal q read, c =>
    if c = q.mark then
      match close q read with
      | .ok token => .ok (.between, [token])
      | .error e => .error e
    else if c = '\\' then .ok (.escaped q read, [])
    else .ok (.literal q (c :: read), [])
  | .escaped q read, c =>
    match unescape? c with
    | some d => .ok (.literal q (d :: read), [])
    | none => .error (.unknownEscape c)

section Steps

variable {s s' : Scan} {c : Char} {ts : List Token} {e : Error}

/-- Without new tokens a result is as it was. -/
theorem map_nil_append (r : Except Error (List Token)) : r.map ([] ++ ·) = r := by
  cases r <;> rfl

/-- A source is scanned from the state behind its first character, if that can be read. -/
theorem scan_cons (s : Scan) (c : Char) (cs : List Char) :
    scan s (c :: cs) =
      match s.next c with
      | .ok (s', ts) => (scan s' cs).map (ts ++ ·)
      | .error e => .error e := by
  cases s with
  | between =>
    rw [scan, Scan.next]
    by_cases hblank : Text.isBlank c = true
    · simp only [if_pos hblank, map_nil_append]
    · simp only [if_neg hblank]
      cases Quote.ofMark? c <;> simp only [map_nil_append]
  | word read =>
    rw [scan, Scan.next]
    by_cases hblank : Text.isBlank c = true
    · simp only [if_pos hblank, List.singleton_append]
    · simp only [if_neg hblank, map_nil_append]
  | literal q read =>
    rw [scan, Scan.next]
    by_cases hmark : c = q.mark
    · simp only [if_pos hmark]
      cases close q read <;> simp only [List.singleton_append]
    · simp only [if_neg hmark]
      by_cases hslash : c = '\\'
      · simp only [if_pos hslash, map_nil_append]
      · simp only [if_neg hslash, map_nil_append]
  | escaped q read =>
    rw [scan, Scan.next]
    cases unescape? c <;> simp only [map_nil_append]

/-- A source is scanned from the state behind its first character. -/
theorem scan_of_next (h : s.next c = .ok (s', ts)) (cs : List Char) :
    scan s (c :: cs) = (scan s' cs).map (ts ++ ·) := by
  rw [scan_cons, h]

/-- A source is refused at the first character that cannot be read. -/
theorem scan_of_next_error (h : s.next c = .error e) (cs : List Char) :
    scan s (c :: cs) = .error e := by
  rw [scan_cons, h]

/-- What a character that can be read may do. -/
inductive Scan.Steps : Scan → Char → Scan → List Token → Prop
  | skips {c : Char} (hblank : Text.isBlank c = true) : Steps .between c .between []
  | opens {c : Char} {q : Quote} (hquote : Quote.ofMark? c = some q) :
      Steps .between c (.literal q []) []
  | starts {c : Char} (hblank : Text.isBlank c = false) (hquote : Quote.ofMark? c = none) :
      Steps .between c (.word [c]) []
  | ends {c : Char} {read : List Char} (hblank : Text.isBlank c = true) :
      Steps (.word read) c .between [.word (String.ofList read.reverse)]
  | extendsWord {c : Char} {read : List Char} (hblank : Text.isBlank c = false) :
      Steps (.word read) c (.word (c :: read)) []
  | closes {q : Quote} {read : List Char} {t : Token} (hclose : close q read = .ok t) :
      Steps (.literal q read) q.mark .between [t]
  | escapes {q : Quote} {read : List Char} : Steps (.literal q read) '\\' (.escaped q read) []
  | extendsLiteral {c : Char} {q : Quote} {read : List Char} (hmark : c ≠ q.mark)
      (hslash : c ≠ '\\') : Steps (.literal q read) c (.literal q (c :: read)) []
  | stands {c d : Char} {q : Quote} {read : List Char} (hd : unescape? c = some d) :
      Steps (.escaped q read) c (.literal q (d :: read)) []

/-- What the scanner does at a character is one of its steps. -/
theorem Scan.steps_of_next (h : s.next c = .ok (s', ts)) : s.Steps c s' ts := by
  cases s with
  | between =>
    rw [Scan.next] at h
    by_cases hblank : Text.isBlank c = true
    · rw [if_pos hblank] at h
      cases h
      exact .skips hblank
    · rw [if_neg hblank] at h
      cases hquote : Quote.ofMark? c with
      | some q =>
        rw [hquote] at h
        cases h
        exact .opens hquote
      | none =>
        rw [hquote] at h
        cases h
        exact .starts (Bool.eq_false_iff.mpr hblank) hquote
  | word read =>
    rw [Scan.next] at h
    by_cases hblank : Text.isBlank c = true
    · rw [if_pos hblank] at h
      cases h
      exact .ends hblank
    · rw [if_neg hblank] at h
      cases h
      exact .extendsWord (Bool.eq_false_iff.mpr hblank)
  | literal q read =>
    rw [Scan.next] at h
    by_cases hmark : c = q.mark
    · subst hmark
      rw [if_pos rfl] at h
      cases hclose : close q read with
      | ok t =>
        rw [hclose] at h
        cases h
        exact .closes hclose
      | error e =>
        rw [hclose] at h
        cases h
    · rw [if_neg hmark] at h
      by_cases hslash : c = '\\'
      · subst hslash
        rw [if_pos rfl] at h
        cases h
        exact .escapes
      · rw [if_neg hslash] at h
        cases h
        exact .extendsLiteral hmark hslash
  | escaped q read =>
    rw [Scan.next] at h
    cases hd : unescape? c with
    | some d =>
      rw [hd] at h
      cases h
      exact .stands hd
    | none =>
      rw [hd] at h
      cases h

end Steps

/-- The scanner reads characters, completing tokens, and is left in another state. -/
inductive Scan.Reads : Scan → List Char → List Token → Scan → Prop
  | nil (s : Scan) : Reads s [] [] s
  | cons {s s₁ s' : Scan} {c : Char} {cs : List Char} {ts₁ ts : List Token}
      (hnext : s.next c = .ok (s₁, ts₁)) (hrest : Reads s₁ cs ts s') :
      Reads s (c :: cs) (ts₁ ++ ts) s'

namespace Scan.Reads

variable {s s₁ s' : Scan} {c : Char} {cs ds : List Char} {ts us : List Token}

/-- A step that completes no token. -/
theorem step (hnext : s.next c = .ok (s₁, [])) (hrest : s₁.Reads cs ts s') :
    s.Reads (c :: cs) ts s' := .cons hnext hrest

theorem single (hnext : s.next c = .ok (s', ts)) : s.Reads [c] ts s' := by
  have h := Reads.cons hnext (.nil s')
  rwa [List.append_nil] at h

/-- What is read in two parts is read as a whole. -/
theorem trans (h : s.Reads cs ts s₁) (h' : s₁.Reads ds us s') :
    s.Reads (cs ++ ds) (ts ++ us) s' := by
  induction h with
  | nil => exact h'
  | cons hnext _ ih =>
    rw [List.append_assoc]
    exact .cons hnext (ih h')

/-- What follows is scanned from the state that is reached. -/
theorem scan_append (h : s.Reads cs ts s') (rest : List Char) :
    scan s (cs ++ rest) = (scan s' rest).map (ts ++ ·) := by
  induction h with
  | nil s =>
    rw [map_nil_append]
    rfl
  | @cons s s₁ s' c cs ts₁ ts hnext _ ih =>
    rw [List.cons_append, scan_of_next hnext, ih]
    cases scan s' rest with
    | ok us =>
      show Except.ok (ts₁ ++ (ts ++ us)) = Except.ok (ts₁ ++ ts ++ us)
      rw [List.append_assoc]
    | error e => rfl

end Scan.Reads

section Failing

variable {s : Scan} {c : Char} {e : Error}

/-- The errors at a character are those of escapes and of literals that are closed. -/
theorem Scan.ne_unterminated_of_next (h : s.next c = .error e) (q : Quote) :
    e ≠ .unterminated q := by
  cases s with
  | between =>
    simp only [Scan.next] at h
    split at h
    · cases h
    · split at h <;> cases h
  | word read =>
    simp only [Scan.next] at h
    split at h <;> cases h
  | literal p read =>
    simp only [Scan.next] at h
    split at h
    · cases hclose : close p read with
      | ok t =>
        rw [hclose] at h
        cases h
      | error e' =>
        rw [hclose] at h
        cases h
        unfold close at hclose
        split at hclose <;> cases hclose
        exact Error.noConfusion
    · split at h <;> cases h
  | escaped p read =>
    simp only [Scan.next] at h
    split at h
    · cases h
    · cases h
      exact Error.noConfusion

/-- Characters are read to their end, or something among them is wrong whatever follows them. -/
theorem Scan.reads_or_fails (s : Scan) (cs : List Char) :
    (∃ ts s', s.Reads cs ts s') ∨
      ∃ e, (∀ q, e ≠ .unterminated q) ∧ ∀ rest, scan s (cs ++ rest) = .error e := by
  induction cs generalizing s with
  | nil => exact .inl ⟨[], s, .nil s⟩
  | cons c cs ih =>
    cases hnext : s.next c with
    | error e =>
      refine .inr ⟨e, Scan.ne_unterminated_of_next hnext, fun rest => ?_⟩
      exact scan_of_next_error hnext (cs ++ rest)
    | ok found =>
      obtain ⟨s₁, ts₁⟩ := found
      obtain ⟨ts, s', hrest⟩ | ⟨e, hne, he⟩ := ih s₁
      · exact .inl ⟨ts₁ ++ ts, s', .cons hnext hrest⟩
      · refine .inr ⟨e, hne, fun rest => ?_⟩
        rw [List.cons_append, scan_of_next hnext, he rest]
        rfl

end Failing

/-! ### Spelling -/

/-- The letter that stands for a character behind a backslash. -/
def escapeLetter? : Char → Option Char
  | '\n' => some 'n'
  | '\t' => some 't'
  | '\r' => some 'r'
  | '\x00' => some '0'
  | c => if c = '\\' ∨ c = '"' ∨ c = '\'' then some c else none

/-- How a character is written in a literal: as it is, unless it is a backslash or the delimiter, or
escaped. -/
inductive Quote.Writes (q : Quote) : Char → List Char → Prop
  | raw {c : Char} (hslash : c ≠ '\\') (hmark : c ≠ q.mark) : Writes q c [c]
  | escaped {c l : Char} (hl : escapeLetter? c = some l) : Writes q c ['\\', l]

/-- How a text is written in a literal. -/
inductive Quote.Spells (q : Quote) : List Char → List Char → Prop
  | nil : Spells q [] []
  | cons {c : Char} {cs written spelled : List Char} (hc : q.Writes c written)
      (hcs : Spells q cs spelled) : Spells q (c :: cs) (written ++ spelled)

/-- How a token is written: a word as it is, literals between their delimiters. -/
inductive Token.Spelled : Token → List Char → Prop
  | word (text : String) : Spelled (.word text) text.toList
  | str {text : String} {spelled : List Char} (h : Quote.double.Spells text.toList spelled) :
      Spelled (.str text) ('"' :: spelled ++ ['"'])
  | char {c : Char} {written : List Char} (h : Quote.single.Writes c written) :
      Spelled (.char c) ('\'' :: written ++ ['\''])

/-- A word is not empty, holds no blanks and does not start with a quote. -/
def Token.Proper : Token → Prop
  | .word text =>
    ∃ c cs, text.toList = c :: cs ∧ Quote.ofMark? c = none ∧
      ∀ d ∈ c :: cs, Text.isBlank d = false
  | _ => True

/-- The characters are blanks. -/
def Blanks (gap : List Char) : Prop :=
  ∀ c ∈ gap, Text.isBlank c = true

/-- The characters spell the tokens, with blanks in front of them, between them and behind them. At
least one blank stands between a word and the next token. -/
inductive Rendering : List Token → List Char → Prop
  | blanks {gap : List Char} (hgap : Blanks gap) : Rendering [] gap
  | token {t : Token} {ts : List Token} {gap spelled rest : List Char} (hgap : Blanks gap)
      (ht : t.Spelled spelled)
      (hend : ∀ text, t = .word text → ∀ c ∈ rest.head?, Text.isBlank c = true)
      (hrest : Rendering ts rest) : Rendering (t :: ts) (gap ++ (spelled ++ rest))

/-! ### What is spelled is read -/

section Reading

variable {q : Quote} {read : List Char}

/-- The two tables of escapes are inverse to each other. -/
theorem unescape?_eq_some_iff {l c : Char} : unescape? l = some c ↔ escapeLetter? c = some l := by
  constructor
  · intro h
    unfold unescape? at h
    split at h
    · cases h
      rfl
    · cases h
      rfl
    · cases h
      rfl
    · cases h
      rfl
    · split at h
      · next hl =>
        cases h
        -- a backslash and the quotes stand for themselves
        rcases hl with rfl | rfl | rfl <;> rfl
      · cases h
  · intro h
    unfold escapeLetter? at h
    split at h
    · cases h
      rfl
    · cases h
      rfl
    · cases h
      rfl
    · cases h
      rfl
    · split at h
      · next hc =>
        cases h
        rcases hc with rfl | rfl | rfl <;> rfl
      · cases h

/-- A quote is no backslash. -/
theorem Quote.mark_ne_slash (q : Quote) : q.mark ≠ '\\' := by
  cases q <;> decide

/-- The mark of a quote opens its literals. -/
theorem Quote.ofMark?_mark (q : Quote) : Quote.ofMark? q.mark = some q := by
  cases q <;> rfl

/-- A quote is no blank. -/
theorem Quote.isBlank_mark (q : Quote) : Text.isBlank q.mark = false := by
  cases q <;> rfl

/-- Only its mark opens the literals of a quote. -/
theorem Quote.eq_mark {c : Char} (h : Quote.ofMark? c = some q) : c = q.mark := by
  unfold Quote.ofMark? at h
  split at h
  · cases h
    assumption
  · split at h
    · cases h
      assumption
    · cases h

/-- Blanks between tokens are passed over. -/
theorem reads_blanks {gap : List Char} (hgap : Blanks gap) :
    Scan.between.Reads gap [] .between := by
  induction gap with
  | nil => exact .nil _
  | cons c cs ih =>
    obtain ⟨hc, hcs⟩ := List.forall_mem_cons.mp hgap
    refine .step ?_ (ih hcs)
    simp only [Scan.next, hc, if_true]

/-- A word goes on up to a blank. -/
theorem reads_word {cs : List Char} (hcs : ∀ c ∈ cs, Text.isBlank c = false) :
    (Scan.word read).Reads cs [] (.word (cs.reverse ++ read)) := by
  induction cs generalizing read with
  | nil => exact .nil _
  | cons c cs ih =>
    obtain ⟨hc, hcs⟩ := List.forall_mem_cons.mp hcs
    rw [List.reverse_cons, List.append_assoc]
    refine .step ?_ (ih hcs)
    simp [Scan.next, hc]

/-- A character of a literal is read as it was written. -/
theorem Quote.Writes.reads {c : Char} {written : List Char} (h : q.Writes c written) :
    (Scan.literal q read).Reads written [] (.literal q (c :: read)) := by
  cases h with
  | raw hslash hmark =>
    refine .single ?_
    simp only [Scan.next, if_neg hmark, if_neg hslash]
  | escaped hl =>
    have hslash : (Scan.literal q read).next '\\' = .ok (.escaped q read, []) := by
      simp only [Scan.next, if_neg q.mark_ne_slash.symm, if_true]
    refine .step hslash (.single ?_)
    simp only [Scan.next, unescape?_eq_some_iff.mpr hl]

/-- So is the text of a literal. -/
theorem Quote.Spells.reads {cs spelled : List Char} (h : q.Spells cs spelled) :
    (Scan.literal q read).Reads spelled [] (.literal q (cs.reverse ++ read)) := by
  induction h generalizing read with
  | nil => exact .nil _
  | cons hc _ ih =>
    rw [List.reverse_cons, List.append_assoc]
    exact hc.reads.trans ih

/-- A literal is read from its opening to its closing delimiter. -/
theorem reads_literal {spelled : List Char} {t : Token}
    (h : (Scan.literal q []).Reads spelled [] (.literal q read)) (hclose : close q read = .ok t) :
    Scan.between.Reads (q.mark :: spelled ++ [q.mark]) [t] .between := by
  have hopen : Scan.between.next q.mark = .ok (.literal q [], []) := by
    simp [Scan.next, q.isBlank_mark, q.ofMark?_mark]
  refine .step hopen (h.trans (.single ?_))
  simp only [Scan.next, if_true, hclose]

/-- A word ends where a blank or nothing follows. -/
theorem scan_word_end {rest : List Char} (hend : ∀ c ∈ rest.head?, Text.isBlank c = true) :
    scan (.word read) rest =
      (scan .between rest).map (.word (String.ofList read.reverse) :: ·) := by
  cases rest with
  | nil => rfl
  | cons c cs =>
    have hc : Text.isBlank c = true := hend c rfl
    rw [scan, if_pos hc, scan, if_pos hc]

/-- A spelled token is read in front of whatever may follow it. -/
theorem Token.Spelled.scan_append {t : Token} {spelled rest : List Char} (h : t.Spelled spelled)
    (ht : t.Proper) (hend : ∀ text, t = .word text → ∀ c ∈ rest.head?, Text.isBlank c = true) :
    scan .between (spelled ++ rest) = (scan .between rest).map (t :: ·) := by
  cases h with
  | word text =>
    obtain ⟨c, cs, htext, hmark, hblank⟩ := ht
    obtain ⟨hc, hcs⟩ := List.forall_mem_cons.mp hblank
    have hstart : Scan.between.next c = .ok (.word [c], []) := by
      simp [Scan.next, hc, hmark]
    have hread : Scan.between.Reads text.toList [] (.word text.toList.reverse) := by
      rw [htext, List.reverse_cons]
      exact .step hstart (reads_word hcs)
    rw [hread.scan_append, map_nil_append, scan_word_end (hend text rfl), List.reverse_reverse,
      String.ofList_toList]
  | @str text spelled h =>
    have hclose : close .double (text.toList.reverse ++ []) = .ok (.str text) := by
      rw [List.append_nil, close, List.reverse_reverse, String.ofList_toList]
    exact (reads_literal h.reads hclose).scan_append rest
  | @char c written h => exact (reads_literal h.reads rfl).scan_append rest

/-- Reading a rendering gives the tokens that it spells. -/
theorem Rendering.scan_eq {ts : List Token} {cs : List Char} (h : Rendering ts cs)
    (hts : ∀ t ∈ ts, t.Proper) : scan .between cs = .ok ts := by
  induction h with
  | @blanks gap hgap =>
    have hscan := (reads_blanks hgap).scan_append []
    rwa [List.append_nil] at hscan
  | @token t ts gap spelled rest hgap ht hend _ ih =>
    obtain ⟨hproper, hts⟩ := List.forall_mem_cons.mp hts
    rw [(reads_blanks hgap).scan_append, map_nil_append, ht.scan_append hproper hend, ih hts]
    rfl

end Reading

/-! ### What is read is spelled -/

/-- The characters spell tokens that the language has. -/
def Renders (ts : List Token) (cs : List Char) : Prop :=
  (∀ t ∈ ts, t.Proper) ∧ Rendering ts cs

/-- The characters spell the rest of a literal and the tokens after it. -/
def Quote.Completes (q : Quote) (read : List Char) (ts : List Token) (cs : List Char) : Prop :=
  ∃ text spelled rest t us, cs = spelled ++ q.mark :: rest ∧ q.Spells text spelled ∧
    close q (text.reverse ++ read) = .ok t ∧ ts = t :: us ∧ Renders us rest

/-- The characters spell what is left of the token under way and the tokens after it. -/
def Scan.Completes : Scan → List Token → List Char → Prop
  | .between, ts, cs => Renders ts cs
  | .word read, ts, cs =>
    ∃ more rest us, cs = more ++ rest ∧ (∀ c ∈ more, Text.isBlank c = false) ∧
      (∀ c ∈ rest.head?, Text.isBlank c = true) ∧
      ts = .word (String.ofList (read.reverse ++ more)) :: us ∧ Renders us rest
  | .literal q read, ts, cs => q.Completes read ts cs
  | .escaped q read, ts, cs =>
    ∃ c d rest, cs = c :: rest ∧ unescape? c = some d ∧ q.Completes (d :: read) ts rest

section Spelling

variable {q : Quote} {read cs : List Char} {c : Char} {ts : List Token}

/-- A blank may be put in front of a rendering. -/
theorem Renders.cons_blank (h : Renders ts cs) (hc : Text.isBlank c = true) :
    Renders ts (c :: cs) := by
  refine ⟨h.1, ?_⟩
  cases h.2 with
  | blanks hgap => exact .blanks (List.forall_mem_cons.mpr ⟨hc, hgap⟩)
  | token hgap ht hend hrest =>
    exact .token (List.forall_mem_cons.mpr ⟨hc, hgap⟩) ht hend hrest

/-- So may a token. -/
theorem Renders.cons_token {t : Token} {spelled rest : List Char} (h : Renders ts rest)
    (hproper : t.Proper) (ht : t.Spelled spelled)
    (hend : ∀ text, t = .word text → ∀ c ∈ rest.head?, Text.isBlank c = true) :
    Renders (t :: ts) (spelled ++ rest) := by
  have hgap : Blanks [] := fun _ hc => absurd hc List.not_mem_nil
  exact ⟨List.forall_mem_cons.mpr ⟨hproper, h.1⟩, .token hgap ht hend h.2⟩

/-- A closed literal spells its token. -/
theorem Token.Spelled.of_close {text spelled : List Char} {t : Token} (h : q.Spells text spelled)
    (hclose : close q text.reverse = .ok t) : t.Spelled (q.mark :: spelled ++ [q.mark]) := by
  unfold close at hclose
  split at hclose
  · cases hclose
    refine .str ?_
    rwa [String.toList_ofList, List.reverse_reverse]
  · next c hread =>
    cases hclose
    -- the text is the one character that was read
    obtain rfl : text = [c] := by rw [← text.reverse_reverse, hread, List.reverse_singleton]
    cases h with
    | cons hc hnil =>
      cases hnil
      rw [List.append_nil]
      exact .char hc
  · cases hclose

/-- A literal that is closed is a proper token. -/
theorem Token.Proper.of_close {t : Token} (hclose : close q read = .ok t) : t.Proper := by
  unfold close at hclose
  split at hclose
  · cases hclose
    trivial
  · cases hclose
    trivial
  · cases hclose

theorem Token.ne_word_of_close {t : Token} (hclose : close q read = .ok t) (text : String) :
    t ≠ .word text := by
  unfold close at hclose
  split at hclose <;> cases hclose <;> exact Token.noConfusion

/-- A character that is written in front of the rest of a literal belongs to its text. -/
theorem Quote.Completes.cons_writes {written : List Char} (hc : q.Writes c written)
    (h : q.Completes (c :: read) ts cs) : q.Completes read ts (written ++ cs) := by
  obtain ⟨text, spelled, rest, t, us, rfl, hspells, hclose, hts⟩ := h
  refine ⟨c :: text, written ++ spelled, rest, t, us, ?_, .cons hc hspells, ?_, hts⟩
  · rw [List.append_assoc]
  · rwa [List.reverse_cons, List.append_assoc]

/-- A literal behind its opening delimiter is a token. -/
theorem Quote.Completes.renders (h : q.Completes [] ts cs) : Renders ts (q.mark :: cs) := by
  obtain ⟨text, spelled, rest, t, us, rfl, hspells, hclose, rfl, hus⟩ := h
  rw [List.append_nil] at hclose
  have hrenders : Renders (t :: us) (q.mark :: spelled ++ [q.mark] ++ rest) := by
    refine Renders.cons_token hus (.of_close hclose) (.of_close hspells hclose) ?_
    intro text ht
    exact absurd ht (Token.ne_word_of_close hclose text)
  simpa using hrenders

/-- So are the characters up to the next blank, if no quote stands first. -/
theorem Scan.Completes.renders_word (hc : Text.isBlank c = false) (hmark : Quote.ofMark? c = none)
    (h : (Scan.word [c]).Completes ts cs) : Renders ts (c :: cs) := by
  obtain ⟨more, rest, us, rfl, hmore, hend, rfl, hus⟩ := h
  have hspelled : (Token.word (String.ofList (c :: more))).Spelled (c :: more) := by
    have h := Token.Spelled.word (String.ofList (c :: more))
    rwa [String.toList_ofList] at h
  refine Renders.cons_token hus ?_ hspelled fun _ _ => hend
  exact ⟨c, more, String.toList_ofList, hmark, List.forall_mem_cons.mpr ⟨hc, hmore⟩⟩

/-- A character that is read belongs to the token under way or starts the next one. -/
theorem Scan.Steps.completes {s s' : Scan} {us : List Token} (h : s.Steps c s' us)
    (hrest : s'.Completes ts cs) : s.Completes (us ++ ts) (c :: cs) := by
  cases h with
  | skips hblank => exact Renders.cons_blank hrest hblank
  | opens hquote =>
    obtain rfl := Quote.eq_mark hquote
    exact Quote.Completes.renders hrest
  | starts hblank hquote => exact hrest.renders_word hblank hquote
  | ends hblank =>
    refine ⟨[], c :: cs, ts, rfl, fun _ hd => absurd hd List.not_mem_nil, ?_, ?_,
      Renders.cons_blank hrest hblank⟩
    · simpa using hblank
    · rw [List.append_nil, List.singleton_append]
  | extendsWord hblank =>
    obtain ⟨more, rest, us, rfl, hmore, hend, rfl, hus⟩ := hrest
    refine ⟨c :: more, rest, us, rfl, ?_, hend, ?_, hus⟩
    · exact List.forall_mem_cons.mpr ⟨hblank, hmore⟩
    · rw [List.reverse_cons, List.append_assoc, List.singleton_append, List.nil_append]
  | closes hclose => exact ⟨[], [], cs, _, ts, rfl, .nil, hclose, rfl, hrest⟩
  | escapes =>
    obtain ⟨l, d, rest, rfl, hl, hrest⟩ := hrest
    exact hrest.cons_writes (.escaped (unescape?_eq_some_iff.mp hl))
  | extendsLiteral hmark hslash => exact Quote.Completes.cons_writes (.raw hslash hmark) hrest
  | stands hd => exact ⟨c, _, cs, rfl, hd, hrest⟩

/-- The tokens that the scanner gives are spelled by what it reads. -/
theorem Scan.completes_of_scan {s : Scan} (h : scan s cs = .ok ts) : s.Completes ts cs := by
  -- one step and what the rest spells
  induction cs generalizing s ts with
  | nil =>
    have hnone : Renders [] [] :=
      ⟨fun _ ht => absurd ht List.not_mem_nil, .blanks fun _ hc => absurd hc List.not_mem_nil⟩
    cases s with
    | between =>
      cases h
      exact hnone
    | word read =>
      cases h
      refine ⟨[], [], [], rfl, fun _ hc => absurd hc List.not_mem_nil, fun _ hc => ?_, ?_, hnone⟩
      · simp at hc
      · rw [List.append_nil]
    | literal q read => cases h
    | escaped q read => cases h
  | cons c cs ih =>
    rw [scan_cons] at h
    cases hnext : s.next c with
    | error e =>
      rw [hnext] at h
      cases h
    | ok found =>
      obtain ⟨s', us⟩ := found
      rw [hnext] at h
      dsimp only at h
      cases hrest : scan s' cs with
      | error e =>
        rw [hrest] at h
        cases h
      | ok rest =>
        rw [hrest] at h
        cases h
        exact (Scan.steps_of_next hnext).completes (ih hrest)

end Spelling

/-- Tokenizing inverts spelling: the tokens of a source are the proper tokens that it spells,
however their literals are escaped and whatever blanks stand around them. -/
theorem tokenize_eq_ok_iff (text : String) (tokens : List Token) :
    tokenize text = .ok tokens ↔ (∀ t ∈ tokens, t.Proper) ∧ Rendering tokens text.toList := by
  constructor
  · intro h
    exact Scan.completes_of_scan h
  · rintro ⟨hproper, hrendering⟩
    exact hrendering.scan_eq hproper

example : tokenize "1 \"a b\\n\"'c' '\\'' ++" =
    .ok [.word "1", .str "a b\n", .char 'c', .char '\'', .word "++"] := by
  rfl

end LazyMachine.Postfix
