import ReleasePipeline.Proofs.Files.Content
import ReleasePipeline.Proofs.Plugin.Faults

/-! What comes of a question to the repository: its answer, in a world that knows of the question. -/
namespace ReleasePipeline

/-- The answer is what is read of a command that succeeds and prints the text. -/
def Answer.Shows (a : Answer) (text : String) : Prop :=
  a.Serves ∧ ∃ p : Printed, p.output = text.toUTF8 ∧ a = p.read

/-- What is read has unified line endings. -/
theorem Answer.Shows.output {a : Answer} {text : String} (h : a.Shows text) :
    a.output = Text.unified text := by
  obtain ⟨⟨hfault, -⟩, p, houtput, rfl⟩ := h
  rw [Printed.read, houtput, textOfBytes_eq_unified] at hfault ⊢
  cases herrors : textOfBytes p.errors with
  | ok errors => rfl
  | error e =>
    rw [herrors] at hfault
    cases hfault

theorem Printed.shows_read {p : Printed} {text errors : String} (hcode : p.code = 0)
    (houtput : p.output = text.toUTF8) (herrors : textOfBytes p.errors = .ok errors) :
    p.read.Shows text := by
  refine ⟨?_, p, houtput, rfl⟩
  rw [Printed.read, houtput, textOfBytes_eq_unified, herrors]
  exact ⟨rfl, hcode⟩

namespace Git

open ReleasePipeline.Action

variable {s : Settings} {w : World} {args : List String} {output text : String}

/-- In the world a question to the repository is answered by a text, whenever it is asked. -/
def Answers (w : World) (args : List String) (output : String) : Prop :=
  ∀ before, (w.answers ("git" :: args) before).Serves ∧
    (w.answers ("git" :: args) before).output = output

/-- In the world the repository prints a text for a question, whenever it is asked. -/
def Prints (w : World) (args : List String) (text : String) : Prop :=
  ∀ before, (w.answers ("git" :: args) before).Shows text

theorem answers_of_prints (h : Prints w args text) : Answers w args (Text.unified text) :=
  fun before => ⟨(h before).1, (h before).output⟩

/-- The message in front of a command. -/
def announcement (args : List String) : Event :=
  let line := Text.shellLine ("git" :: args)
  .message .debug s!"RUN {line}"

/-- The world in which a question to the repository is asked. -/
def told (args : List String) (w : World) : World :=
  w.recorded (announcement args)

theorem read_eq (args : List String) (w : World) :
    read s args w = (execute (command s args) >>= fun answer =>
      if answer.code ≠ 0 then throw (.command ⟨answer.code, "git" :: args, answer.errors⟩)
      else pure answer.output) (told args w) := by
  simp only [read, run, bind_assoc, reduceCtorEq, decide_false, Bool.and_false, Bool.false_eq_true,
    if_false]
  change (execute (command s args) >>= _) (told args w) = _
  rw [bind_apply, bind_apply]
  cases execute (command s args) (told args w) with
  | error e w' => rfl
  | ok answer w' => by_cases hcode : answer.code = 0 <;> simp [hcode] <;> rfl

theorem after_read (args : List String) (w : World) :
    (read s args).after w = (told args w).executed (command s args) := by
  rw [after, read_eq, bind_apply]
  cases hfault : ((told args w).answerTo (command s args)).fault with
  | some fault =>
    obtain ⟨e, hrun, -⟩ := execute_of_fault hfault
    rw [hrun]
  | none =>
    rw [execute_of_fault_none hfault]
    by_cases hcode : ((told args w).answerTo (command s args)).code = 0 <;> simp [hcode] <;> rfl

theorem read_of_serves (h : ((told args w).answerTo (command s args)).Serves) :
    read s args w = .ok ((told args w).answerTo (command s args)).output
      ((told args w).executed (command s args)) := by
  rw [read_eq, bind_apply, execute_of_fault_none h.1]
  simp only [h.2, ne_eq, not_true_eq_false, if_false]
  rfl

/-- A question that is answered whenever it is asked is answered now. -/
theorem read_of_answers (h : Answers w args output) :
    read s args w = .ok output ((told args w).executed (command s args)) := by
  have hanswer := h ((told args w).recorded (.run (command s args))).events
  rw [read_of_serves hanswer.1]
  exact congrArg (EStateM.Result.ok · _) hanswer.2

end Git

end ReleasePipeline
