import Mathlib.Data.List.Induction
import Qvole.Lib.Bytes

/-!
# The words of a command

`SplitCommand` takes the command of an `exec` session apart before it is run without a shell. It knows
blanks and the two kinds of quotes and nothing else. The scanner is compared with a grammar: a command
is a sequence of blanks, of unquoted bytes and of quoted segments, and its words are the maximal runs
without a blank.
-/

namespace Qvole.App

open Lib

/-! ### The scanner -/

/-- The variables of the loop in `SplitCommand`. -/
structure CommandScan where
  args : List Bytes
  current : Bytes
  started : Bool
  inSingle : Bool
  inDouble : Bool
  deriving DecidableEq

namespace CommandScan

def start : CommandScan := ⟨[], [], false, false, false⟩

def step (st : CommandScan) (c : UInt8) : CommandScan :=
  if st.inSingle then
    if c = 39 then { st with inSingle := false } else { st with current := st.current ++ [c] }
  else if st.inDouble then
    if c = 34 then { st with inDouble := false } else { st with current := st.current ++ [c] }
  else if c = 39 then { st with inSingle := true, started := true }
  else if c = 34 then { st with inDouble := true, started := true }
  else if c = 32 ∨ c = 9 then
    if st.started then { st with args := st.args ++ [st.current], current := [], started := false } else st
  else { st with current := st.current ++ [c], started := true }

/-- What is returned behind the loop. -/
def finish (st : CommandScan) : List Bytes :=
  if st.inSingle || st.inDouble then []
  else if st.started then st.args ++ [st.current]
  else st.args

end CommandScan

/-- A nil slice is the empty list: `args` is nil as long as nothing was appended to it. -/
def splitCommand (s : Bytes) : List Bytes := (s.foldl CommandScan.step .start).finish

/-! ### The grammar -/

inductive Quote
  | single
  | double
  deriving DecidableEq

def Quote.byte : Quote → UInt8
  | .single => 39
  | .double => 34

def IsBlank (c : UInt8) : Prop := c = 32 ∨ c = 9

instance (c : UInt8) : Decidable (IsBlank c) := inferInstanceAs (Decidable (c = 32 ∨ c = 9))

def Blank := { c : UInt8 // IsBlank c }

def PlainByte := { c : UInt8 // ¬ IsBlank c ∧ ∀ q : Quote, c ≠ q.byte }

/-- A text in quotes of a kind that it does not contain. -/
structure Quoted where
  quote : Quote
  text : Bytes
  closed : quote.byte ∉ text

def Quoted.render (a : Quoted) : Bytes := a.quote.byte :: (a.text ++ [a.quote.byte])

inductive CommandItem
  | blank (c : Blank)
  | plain (c : PlainByte)
  | quoted (a : Quoted)

namespace CommandItem

def render : CommandItem → Bytes
  | .blank c => [c.val]
  | .plain c => [c.val]
  | .quoted a => a.render

/-- What an item adds to the word it is part of. -/
def text : CommandItem → Bytes
  | .blank _ => []
  | .plain c => [c.val]
  | .quoted a => a.text

def separates : CommandItem → Bool
  | .blank _ => true
  | _ => false

end CommandItem

def renderItems (items : List CommandItem) : Bytes := items.flatMap CommandItem.render

/-- The texts of the runs that are not empty. -/
def wordsOf (runs : List (List CommandItem)) : List Bytes :=
  (runs.filter fun run => !run.isEmpty).map fun run => run.flatMap CommandItem.text

/-- The words: the maximal runs of items other than blanks. -/
def commandWords (items : List CommandItem) : List Bytes :=
  wordsOf (items.splitOnP CommandItem.separates)

/-- Every quote that is opened is closed. -/
def QuotesBalanced (s : Bytes) : Prop := ∃ items, renderItems items = s

theorem wordsOf_cons (run : List CommandItem) (runs : List (List CommandItem)) :
    wordsOf (run :: runs) = wordsOf [run] ++ wordsOf runs := by
  cases run <;> simp [wordsOf]

theorem splitOnP_separates {item : CommandItem} (h : item.separates = true) (items : List CommandItem) :
    (item :: items).splitOnP CommandItem.separates = [] :: items.splitOnP CommandItem.separates := by
  rw [List.splitOnP_cons_eq_if_modifyHead, if_pos h]

theorem splitOnP_word {item : CommandItem} (h : item.separates = false) (items : List CommandItem) :
    (item :: items).splitOnP CommandItem.separates =
      (items.splitOnP CommandItem.separates).modifyHead (item :: ·) := by
  rw [List.splitOnP_cons_eq_if_modifyHead, h, if_neg Bool.false_ne_true]

theorem modifyHead_nil_append (runs : List (List CommandItem)) : runs.modifyHead ([] ++ ·) = runs :=
  congrFun List.modifyHead_id runs

/-! ### Scanning one item -/

namespace CommandScan

variable {st : CommandScan} {c : UInt8} {q : Quote} {body : Bytes}

/-- Outside of quotes, with the run `run` of items read since the last blank. -/
def outside (args : List Bytes) (run : List CommandItem) : CommandScan :=
  ⟨args, run.flatMap CommandItem.text, !run.isEmpty, false, false⟩

/-- Inside of a quoted segment, of which `body` was read. -/
def inside (args : List Bytes) (run : List CommandItem) (q : Quote) (body : Bytes) : CommandScan :=
  ⟨args, run.flatMap CommandItem.text ++ body, true, q = .single, q = .double⟩

variable {args : List Bytes} {run : List CommandItem}

theorem step_open (q : Quote) : (outside args run).step q.byte = inside args run q [] := by
  cases q <;> simp [step, outside, inside, Quote.byte]

theorem step_inside (hc : c ≠ q.byte) : (inside args run q body).step c = inside args run q (body ++ [c]) := by
  cases q <;> simp_all [step, inside, Quote.byte]

theorem step_close (a : Quoted) :
    (inside args run a.quote a.text).step a.quote.byte = outside args (run ++ [.quoted a]) := by
  cases hq : a.quote <;> simp [step, inside, outside, Quote.byte, CommandItem.text]

theorem foldl_inside (hbody : q.byte ∉ body) :
    body.foldl step (inside args run q []) = inside args run q body := by
  induction body using List.reverseRecOn with
  | nil => rfl
  | append_singleton body c ih =>
      rw [List.mem_append, List.mem_singleton, not_or] at hbody
      rw [List.foldl_append, ih hbody.1]
      exact step_inside (Ne.symm hbody.2)

theorem foldl_quoted (a : Quoted) :
    a.render.foldl step (outside args run) = outside args (run ++ [.quoted a]) := by
  rw [Quoted.render, List.foldl_cons, step_open, List.foldl_append, foldl_inside a.closed]
  exact step_close a

theorem step_plain (c : PlainByte) : (outside args run).step c.val = outside args (run ++ [.plain c]) := by
  obtain ⟨c, hblank, hquote⟩ := c
  have hsingle : c ≠ 39 := hquote .single
  have hdouble : c ≠ 34 := hquote .double
  have hspace : ¬ (c = 32 ∨ c = 9) := hblank
  simp [step, outside, hsingle, hdouble, hspace, CommandItem.text]

/-- A blank ends the word if there is one. -/
theorem step_blank (c : Blank) : (outside args run).step c.val = outside (args ++ wordsOf [run]) [] := by
  obtain ⟨c, hblank⟩ := c
  have hsingle : c ≠ 39 := by rintro rfl; exact absurd hblank (by decide)
  have hdouble : c ≠ 34 := by rintro rfl; exact absurd hblank (by decide)
  have hspace : c = 32 ∨ c = 9 := hblank
  cases run <;> simp [step, outside, wordsOf, hsingle, hdouble, hspace]

theorem foldl_item {item : CommandItem} (hword : item.separates = false) :
    item.render.foldl step (outside args run) = outside args (run ++ [item]) := by
  cases item with
  | blank c => cases hword
  | plain c => exact step_plain c
  | quoted a => exact foldl_quoted a

/-! ### Scanning a command -/

theorem finish_outside : (outside args run).finish = args ++ wordsOf [run] := by
  cases run <;> simp [finish, outside, wordsOf]

theorem finish_inside : (inside args run q body).finish = [] := by
  cases q <;> rfl

/-- The run at hand is the front part of the first run of what is still to come. -/
theorem foldl_items (args : List Bytes) (run items : List CommandItem) : ∃ args' run',
    (renderItems items).foldl step (outside args run) = outside args' run' ∧
      args' ++ wordsOf [run'] =
        args ++ wordsOf ((items.splitOnP CommandItem.separates).modifyHead (run ++ ·)) := by
  induction items generalizing args run with
  | nil => exact ⟨args, run, rfl, by simp⟩
  | cons item items ih =>
      rw [renderItems, List.flatMap_cons, List.foldl_append, ← renderItems]
      cases hblank : item.separates with
      | true =>
        obtain ⟨c, rfl⟩ : ∃ c, item = .blank c := by
          cases item with
          | blank c => exact ⟨c, rfl⟩
          | plain c => cases hblank
          | quoted a => cases hblank
        obtain ⟨args', run', hstate, hwords⟩ := ih (args ++ wordsOf [run]) []
        refine ⟨args', run', ?_, ?_⟩
        · rw [← hstate, ← step_blank c]
          rfl
        · rw [hwords, modifyHead_nil_append, splitOnP_separates hblank, List.modifyHead_cons,
            List.append_nil, wordsOf_cons run (items.splitOnP _), List.append_assoc]
      | false =>
        obtain ⟨args', run', hstate, hwords⟩ := ih args (run ++ [item])
        refine ⟨args', run', ?_, ?_⟩
        · rw [foldl_item hblank, hstate]
        · rw [hwords, splitOnP_word hblank, List.modifyHead_modifyHead]
          simp [Function.comp_def]

end CommandScan

open CommandScan

theorem splitCommand_renderItems (items : List CommandItem) :
    splitCommand (renderItems items) = commandWords items := by
  obtain ⟨args, run, hstate, hwords⟩ := foldl_items [] [] items
  rw [modifyHead_nil_append] at hwords
  calc splitCommand (renderItems items)
      = (outside args run).finish := congrArg CommandScan.finish hstate
    _ = args ++ wordsOf [run] := finish_outside
    _ = commandWords items := hwords

/-- A quote that is not closed: it opens behind some items and does not occur again. -/
def Unterminated (s : Bytes) : Prop :=
  ∃ (items : List CommandItem) (q : Quote) (body : Bytes), q.byte ∉ body ∧
    s = renderItems items ++ q.byte :: body

theorem foldl_unterminated (items : List CommandItem) {q : Quote} {body : Bytes} (hbody : q.byte ∉ body) :
    ∃ args run, (renderItems items ++ q.byte :: body).foldl CommandScan.step .start =
      inside args run q body := by
  obtain ⟨args, run, hstate, _⟩ := foldl_items [] [] items
  refine ⟨args, run, ?_⟩
  have hitems : (renderItems items).foldl CommandScan.step .start = outside args run := hstate
  rw [List.foldl_append, List.foldl_cons, hitems, step_open, foldl_inside hbody]

theorem splitCommand_of_unterminated {s : Bytes} (h : Unterminated s) : splitCommand s = [] := by
  obtain ⟨items, q, body, hbody, rfl⟩ := h
  obtain ⟨args, run, hend⟩ := foldl_unterminated items hbody
  rw [splitCommand, hend, finish_inside]

theorem renderItems_concat (items : List CommandItem) (item : CommandItem) :
    renderItems (items ++ [item]) = renderItems items ++ item.render := by
  simp [renderItems]

/-- A text that is read from the front is at each point either complete or inside of a quote. -/
theorem balanced_or_unterminated (s : Bytes) : QuotesBalanced s ∨ Unterminated s := by
  induction s using List.reverseRecOn with
  | nil => exact .inl ⟨[], rfl⟩
  | append_singleton s c ih =>
      rcases ih with ⟨items, rfl⟩ | ⟨items, q, body, hbody, rfl⟩
      · by_cases hquote : ∃ q : Quote, c = q.byte
        · obtain ⟨q, rfl⟩ := hquote
          exact .inr ⟨items, q, [], List.not_mem_nil, rfl⟩
        · left
          by_cases hblank : IsBlank c
          · exact ⟨items ++ [.blank ⟨c, hblank⟩], renderItems_concat _ _⟩
          · exact ⟨items ++ [.plain ⟨c, hblank, fun q hc => hquote ⟨q, hc⟩⟩], renderItems_concat _ _⟩
      · by_cases hclose : c = q.byte
        · left
          refine ⟨items ++ [.quoted ⟨q, body, hbody⟩], ?_⟩
          rw [renderItems_concat, hclose, List.append_assoc]
          rfl
        · right
          refine ⟨items, q, body ++ [c], ?_, by rw [List.append_assoc]; rfl⟩
          rw [List.mem_append, List.mem_singleton, not_or]
          exact ⟨hbody, Ne.symm hclose⟩

theorem not_balanced_of_unterminated {s : Bytes} (h : Unterminated s) : ¬ QuotesBalanced s := by
  rintro ⟨items', rfl⟩
  obtain ⟨items, q, body, hbody, heq⟩ := h
  obtain ⟨args', run', hstate', _⟩ := foldl_items [] [] items'
  obtain ⟨args, run, hend⟩ := foldl_unterminated items hbody
  have hsame : outside args' run' = inside args run q body := by
    rw [← hstate', heq]
    exact hend
  cases q with
  | single => cases congrArg CommandScan.inSingle hsame
  | double => cases congrArg CommandScan.inDouble hsame

/-- The two descriptions of a text with a quote left open are the same. -/
theorem not_balanced_iff {s : Bytes} : ¬ QuotesBalanced s ↔ Unterminated s :=
  ⟨(balanced_or_unterminated s).resolve_left, not_balanced_of_unterminated⟩

/-! ### Quoted arguments -/

/-- A run of at least one blank. -/
def BlankRun := { run : List Blank // run ≠ [] }

def BlankRun.render (run : BlankRun) : Bytes := run.val.map (·.val)

/-- Quoted arguments with blanks between them. -/
def commandLine (first : Quoted) (rest : List (BlankRun × Quoted)) : Bytes :=
  first.render ++ rest.flatMap fun x => x.1.render ++ x.2.render

def lineItems (first : Quoted) (rest : List (BlankRun × Quoted)) : List CommandItem :=
  .quoted first :: rest.flatMap fun x => x.1.val.map .blank ++ [.quoted x.2]

theorem renderItems_lineItems (first : Quoted) (rest : List (BlankRun × Quoted)) :
    renderItems (lineItems first rest) = commandLine first rest := by
  rw [renderItems, lineItems, commandLine, List.flatMap_cons, List.flatMap_assoc]
  congr 2
  funext x
  have hrun : (x.1.val.map CommandItem.blank).flatMap CommandItem.render = x.1.render := by
    rw [List.flatMap_map, BlankRun.render, List.map_eq_flatMap]
    rfl
  rw [List.flatMap_append, hrun, List.flatMap_singleton]
  rfl

theorem wordsOf_quoted (a : Quoted) : wordsOf [[.quoted a]] = [a.text] := by
  simp [wordsOf, CommandItem.text]

theorem commandWords_blank (c : Blank) (items : List CommandItem) :
    commandWords (.blank c :: items) = commandWords items := by
  rw [commandWords, splitOnP_separates rfl, wordsOf_cons]
  rfl

theorem commandWords_blanks (run : List Blank) (items : List CommandItem) :
    commandWords (run.map .blank ++ items) = commandWords items := by
  induction run with
  | nil => rfl
  | cons c run ih => rw [List.map_cons, List.cons_append, commandWords_blank, ih]

theorem commandWords_quoted_blank (a : Quoted) (c : Blank) (items : List CommandItem) :
    commandWords (.quoted a :: .blank c :: items) = a.text :: commandWords items := by
  rw [commandWords, splitOnP_word rfl, splitOnP_separates rfl, List.modifyHead_cons, wordsOf_cons,
    wordsOf_quoted]
  rfl

theorem commandWords_lineItems (first : Quoted) (rest : List (BlankRun × Quoted)) :
    commandWords (lineItems first rest) = first.text :: rest.map fun x => x.2.text := by
  induction rest generalizing first with
  | nil =>
      rw [commandWords, lineItems, List.flatMap_nil, splitOnP_word rfl]
      exact wordsOf_quoted first
  | cons x rest ih =>
      obtain ⟨⟨run, hrun⟩, next⟩ := x
      obtain ⟨c, run, rfl⟩ := List.exists_cons_of_ne_nil hrun
      have hitems : lineItems first ((⟨c :: run, hrun⟩, next) :: rest) =
          .quoted first :: .blank c :: (run.map .blank ++ lineItems next rest) := by
        simp [lineItems]
      rw [hitems, commandWords_quoted_blank, commandWords_blanks, ih, List.map_cons]

/-- `SplitCommand` returns nil when a quote is left open and the words of the command otherwise. So it
gives back every list of arguments that was quoted and joined with blanks. -/
theorem splitCommand_grammar :
    (∀ s, ¬ QuotesBalanced s → splitCommand s = []) ∧
    (∀ items, splitCommand (renderItems items) = commandWords items) ∧
    splitCommand [] = [] ∧
    ∀ first rest, splitCommand (commandLine first rest) = first.text :: rest.map fun x => x.2.text := by
  refine ⟨fun s hs => ?_, splitCommand_renderItems, rfl, fun first rest => ?_⟩
  · exact splitCommand_of_unterminated (not_balanced_iff.mp hs)
  · rw [← renderItems_lineItems, splitCommand_renderItems, commandWords_lineItems]

theorem splitCommand_grammar_open : ¬ QuotesBalanced (ascii "'a \"b") ∧ splitCommand (ascii "'a \"b") = [] := by
  have hopen : ¬ QuotesBalanced (ascii "'a \"b") :=
    not_balanced_iff.mpr ⟨[], .single, ascii "a \"b", by decide, rfl⟩
  exact ⟨hopen, splitCommand_grammar.1 _ hopen⟩

example : splitCommand (ascii "a ''b '' \"c d\"") = [ascii "a", ascii "b", [], ascii "c d"] := by decide

end Qvole.App
