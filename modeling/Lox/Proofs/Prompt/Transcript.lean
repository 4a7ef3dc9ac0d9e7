import Lox.CommandLine
import Lox.Proofs.Prompt.Effects
import Lox.Proofs.Prompt.Lines

/-! The prompt is a session: what it writes is what the lines in front of the first `exit` print and
report, one after the other on one machine. -/
namespace Lox
namespace Prompt

/-- The lines in front of the first `exit`. -/
def sources (typed : List String) : List String := typed.takeWhile fun line => !isExit line

/-- What a prompt writes when its lines did this. -/
def transcript : List Entry → Written
  | [] => ⟨mark, ""⟩
  | e :: rest => (Written.append ⟨mark, ""⟩ (.ofEntry e)).append (transcript rest)

theorem run_eq_session (fuel : Nat) (typed : List String) (m : Machine) :
    run fuel (typed.map .text) m = (m.session fuel (sources typed)).map fun r =>
      (transcript r.1, if typed.any isExit then .exit else .endOfInput) := by
  induction typed generalizing m with
  | nil => rfl
  | cons line rest ih =>
    rw [List.map_cons, run, react, sources, List.takeWhile_cons, List.any_cons]
    cases hexit : isExit line with
    | true => rfl
    | false =>
      rw [Bool.not_false, if_pos rfl, if_neg Bool.false_ne_true, Bool.false_or, Machine.session]
      cases m.enterSource fuel line with
      | none => rfl
      | some r =>
        obtain ⟨e, mid⟩ := r
        have ih := ih mid
        rw [sources] at ih
        simp only [Option.map_some, Option.bind_eq_bind, Option.bind_some, ih]
        cases mid.session fuel (rest.takeWhile fun line => !isExit line) <;> rfl

theorem textOfCut_toUTF8 (s : String) : textOfCut s.toUTF8 = s := by
  have hwhole : String.fromUTF8? (s.toUTF8.extract 0 (s.toUTF8.size - 0)) = some s := by
    rw [Nat.sub_zero, ByteArray.extract_zero_size, fromUTF8?_toUTF8]
  simp only [textOfCut, hwhole]

theorem toUTF8_injective : Function.Injective String.toUTF8 := fun s s' h => by
  rw [String.toUTF8_eq_toByteArray, String.toUTF8_eq_toByteArray] at h
  exact String.toByteArray_inj.1 h

/-- The texts of failures, each with the end of a line. -/
def errorText (entries : List Entry) : String :=
  String.join ((entries.filterMap (·.failure)).map fun f => f.text ++ "\n")

theorem errorText_cons (e : Entry) (entries : List Entry) :
    errorText (e :: entries) = (Written.ofEntry e).errors ++ errorText entries := by
  rw [errorText, List.filterMap_cons, Written.ofEntry]
  cases e.failure with
  | none => exact String.empty_append.symm
  | some f => exact String.join_cons

theorem transcript_eq {entries : List Entry} {texts : List String}
    (h : entries.map (·.printed) = texts.map String.toUTF8) :
    transcript entries = ⟨String.join (texts.map (mark ++ ·)) ++ mark, errorText entries⟩ := by
  induction entries generalizing texts with
  | nil =>
    obtain rfl : texts = [] := by simpa using h.symm
    rfl
  | cons e entries ih =>
    cases texts with
    | nil => cases h
    | cons text texts =>
      obtain ⟨hprinted, h⟩ : e.printed = text.toUTF8 ∧ _ := List.cons.inj h
      have houtput : (Written.ofEntry e).output = text := by
        rw [Written.ofEntry, hprinted, textOfCut_toUTF8]
      rw [transcript, ih h, errorText_cons, List.map_cons, String.join_cons]
      simp only [Written.append, houtput, String.empty_append, String.append_assoc]

end Prompt

namespace CommandLine

/-- A machine between the lines of a session. -/
theorem idle_of_session {limit : Option Nat} {sink : Sink} {clock : Nat → Float} {fuel : Nat}
    {sources : List String} {entries : List Entry} {m : Machine}
    (h : (Machine.start limit sink clock).session fuel sources = some (entries, m)) : m.Idle := by
  obtain ⟨ds, hruns⟩ := Machine.session_interprets h
  exact (hruns.idle ⟨rfl, rfl⟩).1

/-- A prompt is a session of the lines in front of the first `exit`: it exits with 0, shows a mark
in front of what each of them prints and one more behind that, ends the line of the last mark if
there is no `exit`, and reports the lines that fail. Of a line that fails, the lines behind it see
the effects that it had up to there and nothing else. -/
theorem prompt_is_session (limit : Option Nat) (clock : Nat → Float) (fuel : Nat)
    (files : String → FileContent) (input : String) :
    let m := Machine.start limit .unlimited clock
    let typed := Prompt.typed input.toList
    let lines := Prompt.sources typed
    let result := (Command.ofWords? ["run"]).bind (carryOut fuel m files input.toUTF8)
    (m.session fuel lines = none → result = none) ∧
    ∀ entries last, m.session fuel lines = some (entries, last) →
      (∃ texts : List String, entries.map (·.printed) = texts.map String.toUTF8 ∧
        result = some
          { exitCode := 0
            output := String.join (texts.map (Prompt.mark ++ ·)) ++ Prompt.mark ++
              if typed.any Prompt.isExit then "" else "\n"
            errors := Prompt.errorText entries }) ∧
      ∀ before line after, lines = before ++ line :: after →
        ∀ passed m' f mid, m.session fuel before = some (passed, m') →
          m'.run fuel line = some (some f, mid) →
            ∃ stop, m'.FailsAt fuel line f stop ∧
              mid.shows fuel after = (m'.completing stop).shows fuel after := by
  intro m typed lines result
  have hresult : result = (m.session fuel lines).map fun r => promptResult
      (Prompt.transcript r.1) (if typed.any Prompt.isExit then .exit else .endOfInput) := by
    have hcommand : Command.ofWords? ["run"] = some .prompt := by cbv
    simp only [result, hcommand, Option.bind_some, carryOut, prompt, Prompt.lines_toUTF8,
      Prompt.run_eq_session, Option.map_map]
    rfl
  refine ⟨fun hnone => by rw [hresult, hnone]; rfl, fun entries last hsession => ⟨?_, ?_⟩⟩
  · obtain ⟨texts, htexts⟩ := Machine.session_printsText rfl hsession
    refine ⟨texts, htexts, ?_⟩
    rw [hresult, hsession, Option.map_some, Prompt.transcript_eq htexts]
    split
    next => rw [promptResult, String.append_empty]
    next => rfl
  · rintro before line after - passed m' f mid hpassed hline
    obtain ⟨stop, failed, hfails, rfl⟩ := Machine.FailsAt.of_run (idle_of_session hpassed) hline
    exact ⟨stop, hfails, Machine.shows_noting fuel after _ failed⟩

def promptInput : String :=
  "var a = true;\r\nprint a\nprint a;\n-nil;\n exit \nprint a;"

def missingSemicolon : Failure := ⟨.parse, [⟨1, .grammar (.expected .printEnd)⟩]⟩

def negatedNothing : Failure := ⟨.runtime, [⟨1, .runtime .operandNotNumber⟩]⟩

/-- A line that does not compile, one that fails at run time, and one behind the `exit`. -/
theorem prompt_is_session_failing :
    let m := Machine.start (some callLimit) .unlimited fun _ => 0
    let files := fun _ => FileContent.cannotOpen ""
    ∃ entries last, m.session 16 (Prompt.sources (Prompt.typed promptInput.toList)) =
        some (entries, last) ∧
      entries.map (·.failure) = [none, some missingSemicolon, none, some negatedNothing] ∧
      (Command.ofWords? ["run"]).bind (carryOut 16 m files promptInput.toUTF8) = some
        { exitCode := 0
          output := "> > > true\n> > "
          errors := missingSemicolon.text ++ "\n" ++ negatedNothing.text ++ "\n" } := by
  intro m files
  have hlines : Prompt.sources (Prompt.typed promptInput.toList) =
      ["var a = true;", "print a", "print a;", "-nil;"] := by decide +kernel
  have hshown : (m.session 16 ["var a = true;", "print a", "print a;", "-nil;"]).map (fun r =>
      (r.1.map (·.failure), r.1.map (·.printed))) =
        some ([none, some missingSemicolon, none, some negatedNothing],
          ["", "", "true\n", ""].map String.toUTF8) := by cbv
  rw [← hlines] at hshown
  obtain ⟨⟨entries, last⟩, hsession, he⟩ := Option.map_eq_some_iff.1 hshown
  obtain ⟨hfailures, hprinted⟩ := Prod.mk.inj he
  obtain ⟨⟨texts, htexts, hresult⟩, -⟩ :=
    (prompt_is_session (some callLimit) (fun _ => 0) 16 files promptInput).2 entries last hsession
  obtain rfl : texts = ["", "", "true\n", ""] :=
    List.map_injective_iff.2 Prompt.toUTF8_injective (htexts.symm.trans hprinted)
  have hexit : (Prompt.typed promptInput.toList).any Prompt.isExit = true := by decide +kernel
  have herrors : Prompt.errorText entries =
      missingSemicolon.text ++ "\n" ++ negatedNothing.text ++ "\n" := by
    have hfilter : entries.filterMap (id ∘ (·.failure)) = [missingSemicolon, negatedNothing] := by
      rw [← List.filterMap_map, hfailures]
      rfl
    rw [Prompt.errorText, show entries.filterMap (·.failure) = _ from hfilter]
    simp [String.join_cons, String.append_assoc]
  refine ⟨entries, last, hsession, hfailures, ?_⟩
  rw [hresult, herrors, hexit]
  rfl

end CommandLine
end Lox
