import Knp.Duplex
import Mathlib.Data.List.Basic

/-!
# Client and server (`client_mode`, `server_mode`, `knp_main` of `main.c`)

The client sends the lines of its input and stops behind each `EOS` line until it has shown a line
that begins with `EOS`. The server reads a sentence up to a line that is `EOS`, and what it writes
for it ends with such a line.

> All orders of the steps lead to one end (`session_end`). In step, the client shows for each
> sentence what was written for it; with one `EOS` line more in an answer, all later
> answers are shown one sentence late, and with one less the client waits for ever.

A sentence that cannot be read is answered twice: `one_line_analysis` writes a result with `EOS`
and returns FALSE, and for this `knp_main` writes `EOS ERROR`. Lines are shorter than the
buffers. The analysis of a sentence is a parameter, and the command `RC` is left out.
-/

namespace Knp.Session

open Duplex

abbrev Line := List Char

def isEos (l : Line) : Bool := ['E', 'O', 'S'].isPrefixOf l

def eosLine : Line := ['E', 'O', 'S', '\n']

def eosError : Line := ['E', 'O', 'S', ' ', 'E', 'R', 'R', 'O', 'R', '\n']

/-- `EOf` -/
def endChar : Char := '\x0b'

/-! ## The client -/

/-- `send_string` on a line of the answer: whether the code is 200, if there is one. -/
def status (l : Line) : Option Bool :=
  if l.length ≥ 3 ∧ l[3]? = some ' ' then some (l.take 3 = ['2', '0', '0']) else none

/-- The line with the options. -/
def runLine (option : Line) : Line := ['R', 'U', 'N'] ++ option ++ ['\n']

/-- Where the client is: before the greeting, before the answer to `RUN`, at the input with the
number of lines of the sentence, and in an answer; with what was shown. -/
inductive Client
  | greet
  | run
  | asked
  | input (lines : List Line) (strnum : Nat) (shown : List Line)
  | answer (lines : List Line) (shown : List Line)
  | done (shown : List Line)
  | failed

/-- Where the client goes on behind a line of the server when it waits for a code. -/
def afterStatus (l : Line) (again next : Client) : Client :=
  match status l with
  | none => again
  | some ok => if ok then next else .failed

/-- `client_mode` with the text of the options and the input. -/
def clientAct (option : Line) (stdin : List Line) : Client → Act Line Client
  | .greet => .recv fun l => afterStatus l .greet .run
  | .run => .send [runLine option] .asked
  | .asked => .recv fun l => afterStatus l .asked (.input stdin 0 [])
  | .input [] _ shown => .send [['\n'], [endChar, '\n'], "QUIT\n".toList] (.done shown)
  | .input (l :: ls) strnum shown =>
      if isEos l then
        if strnum ≠ 0 then .send [l] (.answer ls shown) else .send [] (.input ls strnum shown)
      else .send [l] (.input ls (strnum + 1) shown)
  | .answer ls shown => .recv fun l =>
      if isEos l then .input ls 0 (shown ++ [l]) else .answer ls (shown ++ [l])
  | .done _ => .stop
  | .failed => .stop

/-! ## The server -/

/-- How `one_line_analysis` ends, with what was written before the last `EOS`: without morphemes
or after a timeout, with FALSE of `one_sentence_analysis`, or with a result. -/
inductive Outcome
  | unread (result : List Line)
  | failed (result : List Line)
  | done (result : List Line)

/-- What is written for a sentence, with the `EOS ERROR` of `knp_main`. -/
def Outcome.lines : Outcome → List Line
  | .unread result => result ++ [eosLine, eosError]
  | .failed result => result ++ [eosError]
  | .done result => result ++ [eosLine]

/-- The analysis, with a state that it keeps from sentence to sentence. -/
structure Analyser (σ : Type) where
  /-- The options of a `RUN` line. -/
  start : Line → σ
  /-- The text behind `200 `. -/
  options : σ → Line
  /-- `*input_buffer == OptIgnoreChar` -/
  ignored : σ → Line → Bool
  /-- A line behind which `read_mrph` goes on to `EOS`. -/
  invalid : σ → List Line → Line → Bool
  analyse : σ → List Line → σ × Outcome
  /-- What is written for a sentence with an invalid line. -/
  discard : σ → List Line → σ × List Line

inductive Server (σ : Type)
  | say (ls : List Line) (next : Server σ)
  | command
  | reading (s : σ) (block : List Line)
  | skipping (s : σ) (block : List Line)
  | closed

variable {σ : Type} (A : Analyser σ)

/-- `\r\n` becomes `\n`. -/
def stripCr (l : Line) : Line :=
  if l.length > 2 ∧ l.drop (l.length - 2) = ['\r', '\n'] then l.take (l.length - 2) ++ ['\n'] else l

/-- What is written for a line, and where the server is then. -/
def react : Server σ → Line → List Line × Server σ
  | .command, l =>
      if (l.take 4).map Char.toLower = ['q', 'u', 'i', 't'] then (["200 OK Quit\n".toList], .closed)
      else if (l.take 3).map Char.toLower = ['r', 'u', 'n'] then
        ([['2', '0', '0', ' '] ++ A.options (A.start l)], .reading (A.start l) [])
      else (["500 What?\n".toList], .command)
  | .reading s block, l =>
      let l := stripCr l
      if l.head? = some endChar then ([], .closed)
      else if A.ignored s l then ([l], .reading s block)
      else if l = eosLine then
        let r := A.analyse s block
        (r.2.lines, .reading r.1 [])
      else if A.invalid s block l then ([], .skipping s block)
      else ([], .reading s (block ++ [l]))
  | .skipping s block, l =>
      if l = eosLine then
        let r := A.discard s block
        ((Outcome.unread r.2).lines, .reading r.1 [])
      else ([], .skipping s block)
  | s, _ => ([], s)

/-- `server_mode` behind `accept` -/
def serverAct : Server σ → Act Line (Server σ)
  | .say ls next => .send ls next
  | .closed => .stop
  | s => .recv fun l => .say (react A s l).1 (react A s l).2

def greeting : Line := ['2', '0', '0', ' '] ++ "Running KNP Server\n".toList

/-- The two parties when the connection was made. -/
def connected : Net Line Client (Server σ) := ⟨.greet, .say [greeting] .command, [], []⟩

/-! ## What is shown -/

/-- What is written for some lines, and where the server is then. -/
def feed : Server σ → List Line → List Line × Server σ
  | s, [] => ([], s)
  | s, l :: ls =>
      let r := feed (react A s l).2 ls
      ((react A s l).1 ++ r.1, r.2)

/-- What is written for each sentence that is sent. -/
def answers : Server σ → List (List Line) → List (List Line)
  | _, [] => []
  | s, b :: bs =>
      if b = [] then answers s bs
      else (feed A s (b ++ [eosLine])).1 :: answers (feed A s (b ++ [eosLine])).2 bs

/-- Up to the first line that begins with `EOS`. -/
def cut : List Line → Option (List Line × List Line)
  | [] => none
  | l :: ls => if isEos l then some ([l], ls) else (cut ls).map fun p => (l :: p.1, p.2)

/-- What is shown of the answers behind lines that were left, and whether all were shown. -/
def shownOf : List Line → List (List Line) → List Line × Bool
  | _, [] => ([], true)
  | left, a :: as =>
      match cut (left ++ a) with
      | none => (left ++ a, false)
      | some (c, left) => (c ++ (shownOf left as).1, (shownOf left as).2)

/-- An input line that is none of `EOS` and the sign for the end. -/
def Plain (l : Line) : Prop := isEos l = false ∧ (stripCr l).head? ≠ some endChar

instance : DecidablePred Plain := fun l =>
  inferInstanceAs (Decidable (isEos l = false ∧ (stripCr l).head? ≠ some endChar))

/-- The server waits for a line of a sentence. -/
inductive Ready : Server σ → Prop
  | reading (s : σ) (block : List Line) : Ready (.reading s block)
  | skipping (s : σ) (block : List Line) : Ready (.skipping s block)

section Run

variable {A} {option : Line} {stdin : List Line} {S : Server σ} {c : Client}
  {q up ls out : List Line} {l : Line} {n : Nat}

theorem react_ready (h : Ready S) (hl : (stripCr l).head? ≠ some endChar) :
    Ready (react A S l).2 := by
  cases h with
  | reading s block =>
      simp only [react, if_neg hl]
      split_ifs <;> constructor
  | skipping s block =>
      simp only [react]
      split_ifs <;> constructor

theorem react_closed (h : Ready S) : Ready (react A S l).2 ∨ (react A S l).2 = .closed := by
  by_cases hl : (stripCr l).head? = some endChar
  · cases h with
    | reading s block => exact .inr (by simp only [react, if_pos hl])
    | skipping s block =>
        simp only [react]
        split_ifs <;> exact .inl (by constructor)
  · exact .inl (react_ready h hl)

/-- The server reads a line and writes what it has to say. -/
theorem server_line (h : Ready S) : Run (clientAct option stdin) (serverAct A)
    ⟨c, S, q, l :: up⟩ ⟨c, (react A S l).2, q ++ (react A S l).1, up⟩ := by
  have hrecv : serverAct A S = .recv fun l => .say (react A S l).1 (react A S l).2 := by
    cases h <;> rfl
  exact .trans (.single (.rightRecv hrecv)) (.single (.rightSend rfl))

/-- The lines of a sentence are sent and read. -/
theorem run_lines {b : List Line} (h : Ready S) (hb : ∀ l ∈ b, Plain l) :
    Run (clientAct option stdin) (serverAct A) ⟨.input (b ++ ls) n out, S, q, []⟩
      ⟨.input ls (n + b.length) out, (feed A S b).2, q ++ (feed A S b).1, []⟩ ∧
    Ready (feed A S b).2 := by
  induction b generalizing S q n with
  | nil =>
      rw [feed, List.append_nil]
      exact ⟨.refl, h⟩
  | cons l b ih =>
      obtain ⟨hl, hend⟩ := hb l List.mem_cons_self
      have hsend : Step (clientAct option stdin) (serverAct A)
          ⟨.input (l :: (b ++ ls)) n out, S, q, []⟩
          ⟨.input (b ++ ls) (n + 1) out, S, q, [l]⟩ :=
        .leftSend (by rw [clientAct, if_neg (by rw [hl]; decide)])
      obtain ⟨hrun, hready⟩ := @ih _ (q ++ (react A S l).1) (n + 1) (react_ready h hend)
        fun l' hl' => hb l' (List.mem_cons_of_mem l hl')
      rw [feed, List.length_cons, ← List.append_assoc, Nat.add_comm b.length, ← Nat.add_assoc]
      exact ⟨.trans (.single hsend) (.trans (server_line h) hrun), hready⟩

theorem feed_append (b : List Line) (l : Line) : feed A S (b ++ [l]) =
    ((feed A S b).1 ++ (react A (feed A S b).2 l).1, (react A (feed A S b).2 l).2) := by
  induction b generalizing S with
  | nil => simp [feed]
  | cons l' b ih => simp only [List.cons_append, feed, ih, List.append_assoc]

/-- A sentence with its `EOS`. -/
theorem run_block {b : List Line} (h : Ready S) (hb : ∀ l ∈ b, Plain l) (hne : b ≠ []) :
    Run (clientAct option stdin) (serverAct A) ⟨.input (b ++ eosLine :: ls) 0 out, S, q, []⟩
      ⟨.answer ls out, (feed A S (b ++ [eosLine])).2, q ++ (feed A S (b ++ [eosLine])).1, []⟩ ∧
    Ready (feed A S (b ++ [eosLine])).2 := by
  obtain ⟨hrun, hready⟩ := @run_lines σ A option stdin S q (eosLine :: ls) out 0 b h hb
  have hsend : Step (clientAct option stdin) (serverAct A)
      ⟨.input (eosLine :: ls) (0 + b.length) out, (feed A S b).2, q ++ (feed A S b).1, []⟩
      ⟨.answer ls out, (feed A S b).2, q ++ (feed A S b).1, [eosLine]⟩ :=
    .leftSend (by
      rw [clientAct, if_pos (by decide), if_pos (by
        have := List.length_pos_iff.mpr hne
        omega)])
  rw [feed_append, ← List.append_assoc]
  exact ⟨.trans hrun (.trans (.single hsend) (server_line hready)),
    react_ready hready (by decide)⟩

theorem answer_line : Step (clientAct option stdin) (serverAct A) ⟨.answer ls out, S, l :: q, up⟩
    ⟨if isEos l then .input ls 0 (out ++ [l]) else .answer ls (out ++ [l]), S, q, up⟩ :=
  have hrecv : clientAct option stdin (.answer ls out) = .recv fun l =>
      if isEos l then .input ls 0 (out ++ [l]) else .answer ls (out ++ [l]) := rfl
  .leftRecv hrecv

/-- An answer is shown up to its `EOS`. -/
theorem run_answer {p : List Line × List Line} (hcut : cut q = some p) :
    Run (clientAct option stdin) (serverAct A) ⟨.answer ls out, S, q, up⟩
      ⟨.input ls 0 (out ++ p.1), S, p.2, up⟩ := by
  induction q generalizing out p with
  | nil => cases hcut
  | cons l q ih =>
      rw [cut] at hcut
      refine .head answer_line ?_
      split_ifs at hcut ⊢ with hl
      · cases hcut
        exact .refl
      · obtain ⟨p', hp', rfl⟩ := Option.map_eq_some_iff.mp hcut
        have hrest := @ih (out ++ [l]) _ hp'
        rwa [List.append_assoc] at hrest

/-- An answer without `EOS` is shown, and the client waits. -/
theorem run_answer_none (hcut : cut q = none) : Run (clientAct option stdin) (serverAct A)
    ⟨.answer ls out, S, q, up⟩ ⟨.answer ls (out ++ q), S, [], up⟩ := by
  induction q generalizing out with
  | nil => rw [List.append_nil]
  | cons l q ih =>
      rw [cut] at hcut
      split_ifs at hcut with hl
      have hrest := @ih (out ++ [l]) (Option.map_eq_none_iff.mp hcut)
      rw [List.append_assoc] at hrest
      have hline := @answer_line σ A option stdin S q up ls out l
      rw [if_neg hl] at hline
      exact .head hline hrest

/-- The text of the sentences. -/
def textOf (bs : List (List Line)) : List Line := bs.flatMap fun b => b ++ [eosLine]

/-- All sentences are sent and their answers shown, or the client waits. -/
theorem run_session {bs : List (List Line)} {tail : List Line} (h : Ready S)
    (hbs : ∀ b ∈ bs, ∀ l ∈ b, Plain l) : ∃ S' q' ls', Ready S' ∧
      Run (clientAct option stdin) (serverAct A) ⟨.input (textOf bs ++ tail) 0 out, S, q, []⟩
        (if (shownOf q (answers A S bs)).2 then
          ⟨.input tail 0 (out ++ (shownOf q (answers A S bs)).1), S', q', []⟩
        else ⟨.answer ls' (out ++ (shownOf q (answers A S bs)).1), S', [], []⟩) := by
  induction bs generalizing S q out with
  | nil => exact ⟨S, q, [], h, by rw [answers, shownOf, if_pos rfl, List.append_nil]; exact .refl⟩
  | cons b bs ih =>
      have hrest := fun b' hb' => hbs b' (List.mem_cons_of_mem b hb')
      rw [textOf, List.flatMap_cons, List.append_assoc, List.append_assoc, ← textOf, answers]
      by_cases hne : b = []
      · subst hne
        obtain ⟨S', q', ls', hready, hrun⟩ := @ih S q out h hrest
        have hskip : Step (clientAct option stdin) (serverAct A)
            ⟨.input (eosLine :: (textOf bs ++ tail)) 0 out, S, q, []⟩
            ⟨.input (textOf bs ++ tail) 0 out, S, q, []⟩ :=
          @Step.leftSend _ _ _ _ _ _ _ _ _ _ []
            (by rw [clientAct, if_pos (by decide), if_neg (by decide)])
        rw [if_pos rfl]
        exact ⟨S', q', ls', hready, .head hskip hrun⟩
      · obtain ⟨hblock, hready⟩ := @run_block σ A option stdin S q (textOf bs ++ tail) out b h
          (hbs b List.mem_cons_self) hne
        rw [if_neg hne, shownOf]
        generalize feed A S (b ++ [eosLine]) = r at hblock hready ⊢
        cases hcut : cut (q ++ r.1) with
        | none => exact ⟨r.2, [], _, hready, .trans hblock (run_answer_none hcut)⟩
        | some p =>
            obtain ⟨S', q', ls', hready', hrun⟩ := @ih _ p.2 (out ++ p.1) hready hrest
            simp only [List.append_assoc] at hrun ⊢
            exact ⟨S', q', ls', hready', .trans hblock (.trans (run_answer hcut) hrun)⟩

/-! ## The end -/

theorem stuck_done (h : Ready S ∨ S = .closed) (hup : Ready S → up = []) :
    ∀ x, ¬Step (clientAct option stdin) (serverAct A) ⟨.done out, S, q, up⟩ x := by
  rintro x (h' | h' | h' | h')
  · cases h'
  · cases h'
  · rcases h with h | rfl
    · cases h <;> cases h'
    · cases h'
  · rcases h with h | rfl
    · exact nomatch hup h
    · cases h'

/-- The server reads what is left when the client is done. -/
theorem run_drain (h : Ready S ∨ S = .closed) : ∃ S' q' up',
    Run (clientAct option stdin) (serverAct A) ⟨.done out, S, q, up⟩ ⟨.done out, S', q', up'⟩ ∧
    ∀ x, ¬Step (clientAct option stdin) (serverAct A) ⟨.done out, S', q', up'⟩ x := by
  induction up generalizing S q with
  | nil => exact ⟨S, q, [], .refl, stuck_done h fun _ => rfl⟩
  | cons l up ih =>
      rcases h with h | rfl
      · obtain ⟨S', q', up', hrun, hstuck⟩ := @ih _ (q ++ (react A S l).1) (react_closed h)
        exact ⟨S', q', up', .trans (server_line h) hrun, hstuck⟩
      · exact ⟨.closed, q, l :: up, .refl, stuck_done (.inr rfl) nofun⟩

theorem afterStatus_ok (t : Line) (again next : Client) :
    afterStatus (['2', '0', '0', ' '] ++ t) again next = next := by
  have hstatus : status (['2', '0', '0', ' '] ++ t) = some true := if_pos ⟨by simp, rfl⟩
  rw [afterStatus, hstatus]
  rfl

theorem run_start : Run (clientAct option stdin) (serverAct A) connected
    ⟨.input stdin 0 [], .reading (A.start (runLine option)) [], [], []⟩ := by
  have hgreet : Step (clientAct option stdin) (serverAct A) ⟨.greet, .command, [greeting], []⟩
      ⟨.run, .command, [], []⟩ := by
    rw [← afterStatus_ok "Running KNP Server\n".toList .greet .run]
    have hrecv : clientAct option stdin .greet = .recv fun l => afterStatus l .greet .run := rfl
    exact .leftRecv hrecv
  have hasked : ∀ t : Line, Step (clientAct option stdin) (serverAct A)
      ⟨.asked, .reading (A.start (runLine option)) [], [['2', '0', '0', ' '] ++ t], []⟩
      ⟨.input stdin 0 [], .reading (A.start (runLine option)) [], [], []⟩ := fun t => by
    rw [← afterStatus_ok t .asked (.input stdin 0 [])]
    have hrecv : clientAct option stdin .asked = .recv fun l =>
      afterStatus l .asked (.input stdin 0 []) := rfl
    exact .leftRecv hrecv
  exact .head (.rightSend rfl) (.head hgreet (.head (.leftSend rfl) (.head (.rightRecv rfl)
    (.head (.rightSend rfl) (.single (hasked _))))))

/-- When all answers are shown, the rest of the input is sent and the client is done. -/
theorem endsAt_done {tail : List Line} (h : Ready S) (htail : ∀ l ∈ tail, Plain l)
    (hrun : Run (clientAct option stdin) (serverAct A) connected ⟨.input tail 0 out, S, q, []⟩) :
    ∃ w, EndsAt (clientAct option stdin) (serverAct A) connected w ∧ w.left = .done out := by
  obtain ⟨htail, hready⟩ := @run_lines σ A option stdin S q [] out 0 tail h htail
  rw [List.append_nil] at htail
  obtain ⟨S', q', up', hdrain, hstuck⟩ := @run_drain σ A option stdin _ (q ++ (feed A S tail).1)
    ([] ++ [['\n'], [endChar, '\n'], "QUIT\n".toList]) out (.inl hready)
  exact ⟨_, endsAt_of_run ((hrun.trans htail).trans (.head (.leftSend rfl) hdrain)) hstuck, rfl⟩

end Run

/-- An analysis that writes the number of the sentence. -/
def counter : Analyser Nat where
  start _ := 0
  options _ := ['\n']
  ignored _ _ := false
  invalid _ _ l := l = ['\n']
  analyse n _ := (n + 1, .done [[Char.ofNat (48 + n), '\n']])
  discard n _ := (n, [])

/-- No line is passed over, and each sentence gets a result or fails, with one `EOS`. -/
structure Orderly (A : Analyser σ) (ls : List Line) : Prop where
  kept : ∀ s, ∀ l ∈ ls, A.ignored s (stripCr l) = false
  valid : ∀ s block, ∀ l ∈ ls, A.invalid s block (stripCr l) = false
  analysed : ∀ s block, block ≠ [] → ∃ r, (∀ l ∈ r, isEos l = false) ∧
    ((A.analyse s block).2 = .done r ∨ (A.analyse s block).2 = .failed r)

/-- What the analysis gives for each sentence, one after the other. -/
def analyses : σ → List (List Line) → List Outcome
  | _, [] => []
  | s, b :: bs =>
      if b = [] then analyses s bs
      else (A.analyse s (b.map stripCr)).2 :: analyses (A.analyse s (b.map stripCr)).1 bs

/-- An answer whose last line is its only `EOS`. -/
def Single (a : List Line) : Prop :=
  ∃ r e, a = r ++ [e] ∧ isEos e = true ∧ ∀ l ∈ r, isEos l = false

section Orderly

variable {A} {l : Line}

theorem isEos_of_stripCr (h : stripCr l = eosLine) : isEos l = true := by
  rw [stripCr] at h
  split_ifs at h
  · have htake : l.take (l.length - 2) = ['E', 'O', 'S'] := (List.append_inj' h rfl).1
    exact List.isPrefixOf_iff_prefix.mpr (htake ▸ List.take_prefix _ l)
  · subst h
    rfl

theorem feed_block {s : σ} {block b : List Line} (hb : ∀ l ∈ b, Plain l) (h : Orderly A b) :
    feed A (.reading s block) b = ([], .reading s (block ++ b.map stripCr)) := by
  induction b generalizing block with
  | nil => rw [feed, List.map_nil, List.append_nil]
  | cons l b ih =>
      obtain ⟨hl, hend⟩ := hb l List.mem_cons_self
      have hne : stripCr l ≠ eosLine := fun heq => by
        rw [isEos_of_stripCr heq] at hl
        cases hl
      have hreact : react A (.reading s block) l = ([], .reading s (block ++ [stripCr l])) := by
        simp only [react, if_neg hend, h.kept s l List.mem_cons_self, if_neg hne,
          h.valid s block l List.mem_cons_self, Bool.false_eq_true, if_false]
      rw [feed, hreact, ih (fun l' hl' => hb l' (List.mem_cons_of_mem l hl')) ⟨
        fun s l' hl' => h.kept s l' (List.mem_cons_of_mem l hl'),
        fun s b l' hl' => h.valid s b l' (List.mem_cons_of_mem l hl'), h.analysed⟩]
      rw [List.map_cons, List.append_assoc]
      rfl

theorem answers_eq {bs : List (List Line)} {s : σ} (hbs : ∀ b ∈ bs, ∀ l ∈ b, Plain l)
    (h : Orderly A (textOf bs)) :
    answers A (.reading s []) bs = (analyses A s bs).map Outcome.lines ∧
      ∀ a ∈ (analyses A s bs).map Outcome.lines, Single a := by
  induction bs generalizing s with
  | nil => exact ⟨rfl, fun a ha => nomatch ha⟩
  | cons b bs ih =>
      rw [textOf, List.flatMap_cons] at h
      have hrest : Orderly A (textOf bs) := ⟨fun s l hl => h.kept s l (List.mem_append_right _ hl),
        fun s b l hl => h.valid s b l (List.mem_append_right _ hl), h.analysed⟩
      have hblock : Orderly A b := ⟨fun s l hl => h.kept s l (List.mem_append_left _
        (List.mem_append_left _ hl)), fun s b l hl => h.valid s b l (List.mem_append_left _
        (List.mem_append_left _ hl)), h.analysed⟩
      have hbs' := fun b' hb' => hbs b' (List.mem_cons_of_mem b hb')
      rw [answers, analyses]
      split_ifs with hne
      · exact ih hbs' hrest
      · have heos : A.ignored s eosLine = false := h.kept s eosLine (by simp)
        have hfeed : feed A (.reading s []) (b ++ [eosLine]) =
            ((A.analyse s (b.map stripCr)).2.lines,
              .reading (A.analyse s (b.map stripCr)).1 []) := by
          have hstrip : stripCr eosLine = eosLine := by decide
          rw [feed_append, feed_block (hbs b List.mem_cons_self) hblock, List.nil_append]
          simp only [react, hstrip, heos, show eosLine.head? ≠ some endChar by decide, if_false,
            Bool.false_eq_true, if_true, List.nil_append]
        obtain ⟨heq, hsingle⟩ := @ih (A.analyse s (b.map stripCr)).1 hbs' hrest
        rw [hfeed, heq]
        refine ⟨rfl, fun a ha => ?_⟩
        rcases List.mem_cons.mp ha with rfl | ha
        · obtain ⟨r, hr, hdone | hfailed⟩ := h.analysed s (b.map stripCr)
            fun hnil => hne (List.map_eq_nil_iff.mp hnil)
          · exact ⟨r, eosLine, by rw [hdone]; rfl, by decide, hr⟩
          · exact ⟨r, eosError, by rw [hfailed]; rfl, by decide, hr⟩
        · exact hsingle a ha

theorem cut_single {a : List Line} (h : Single a) : cut a = some (a, []) := by
  obtain ⟨r, e, rfl, he, hr⟩ := h
  induction r with
  | nil => rw [List.nil_append, cut, if_pos he]
  | cons l r ih =>
      rw [List.cons_append, cut, if_neg (by rw [hr l List.mem_cons_self]; decide),
        ih fun l' hl' => hr l' (List.mem_cons_of_mem l hl')]
      rfl

theorem shownOf_single {as : List (List Line)} (h : ∀ a ∈ as, Single a) :
    shownOf [] as = (as.flatten, true) := by
  induction as with
  | nil => rfl
  | cons a as ih =>
      rw [shownOf, List.nil_append, cut_single (h a List.mem_cons_self)]
      dsimp only
      rw [ih fun a' ha' => h a' (List.mem_cons_of_mem a ha')]
      rfl

/-- In step, what is shown in the end is what the analysis writes for one sentence after the
other, and each answer ends with its only `EOS`. -/
theorem session_in_step (option : Line) (bs : List (List Line)) (tail : List Line)
    (hbs : ∀ b ∈ bs, ∀ l ∈ b, Plain l) (htail : ∀ l ∈ tail, Plain l)
    (h : Orderly A (textOf bs)) :
    (∃ w, EndsAt (clientAct option (textOf bs ++ tail)) (serverAct A) connected w ∧
      w.left = .done ((analyses A (A.start (runLine option)) bs).flatMap Outcome.lines)) ∧
    ∀ o ∈ analyses A (A.start (runLine option)) bs, Single o.lines := by
  obtain ⟨S, q, ls, hready, hrun⟩ := @run_session σ A option (textOf bs ++ tail)
    (.reading (A.start (runLine option)) []) [] [] bs tail (.reading _ _) hbs
  obtain ⟨heq, hsingle⟩ := @answers_eq σ A bs (A.start (runLine option)) hbs h
  rw [heq, shownOf_single hsingle, if_pos rfl, ← List.flatMap_def] at hrun
  exact ⟨endsAt_done hready htail (run_start.trans hrun),
    fun o ho => hsingle _ (List.mem_map_of_mem ho)⟩

theorem session_in_step_counter : ∃ w, EndsAt (clientAct []
    (textOf [[['a', '\n']], [['b', '\n']]])) (serverAct counter) connected w ∧
    w.left = .done [['0', '\n'], eosLine, ['1', '\n'], eosLine] :=
  (session_in_step (A := counter) [] [[['a', '\n']], [['b', '\n']]] [] (by decide) (by decide)
    ⟨fun _ _ _ => rfl,
      fun _ _ => show ∀ l ∈ textOf _, decide (stripCr l = ['\n']) = false by decide,
      fun n _ _ => ⟨_, by simp [isEos, List.isPrefixOf], .inl rfl⟩⟩).1

end Orderly

end Knp.Session
