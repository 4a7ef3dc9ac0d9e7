import Mathlib
import Lox.Proofs.Steps.Instrument

/-! A sink that is full cuts a run off. Up to the byte that it does not take, the run is the one
with an unlimited sink; from there on it can only fail. -/
namespace Lox

variable {α β : Type}

namespace Machine

/-- The machine with a sink that takes `n` more bytes. -/
def allowing (m : Machine) (n : Nat) : Machine := { m with sink := { m.sink with room := some n } }

/-- The machine with a sink that takes `total` bytes, the ones it has included. -/
def capped (m : Machine) (total : Nat) : Machine := m.allowing (total - m.sink.written.size)

/-- The later machine has still no limit, and it has what was written. -/
structure PrintsOn (m m' : Machine) : Prop where
  unlimited : m'.sink.room = none
  written : ∃ more, m'.sink.written = m.sink.written ++ more

namespace PrintsOn

variable {m m' m'' : Machine} {total : Nat}

theorem of_sink_eq (hm : m.sink.room = none) (h : m'.sink = m.sink) : m.PrintsOn m' where
  unlimited := by rw [h, hm]
  written := ⟨.empty, by rw [h, ByteArray.append_empty]⟩

theorem trans (h : m.PrintsOn m') (h' : m'.PrintsOn m'') : m.PrintsOn m'' := by
  obtain ⟨more, hmore⟩ := h.written
  obtain ⟨more', hmore'⟩ := h'.written
  exact ⟨h'.unlimited, more ++ more', by rw [hmore', hmore, ByteArray.append_assoc]⟩

theorem size_le (h : m.PrintsOn m') : m.sink.written.size ≤ m'.sink.written.size := by
  obtain ⟨more, hmore⟩ := h.written
  rw [hmore, ByteArray.size_append]
  exact Nat.le_add_right _ _

/-- What was cut off is not missed by what is printed later. -/
theorem extract_eq (h : m.PrintsOn m') (hfull : total ≤ m.sink.written.size) :
    m'.sink.written.extract 0 total = m.sink.written.extract 0 total := by
  obtain ⟨more, hmore⟩ := h.written
  have hnone : more.extract (0 - m.sink.written.size) (total - m.sink.written.size) = .empty := by
    rw [ByteArray.extract_eq_empty_iff]
    omega
  rw [hmore, ByteArray.extract_append, hnone, ByteArray.append_empty]

theorem passage : Passage fun m m' => m.sink.room = none → m.PrintsOn m' where
  trans h h' hm := (h hm).trans (h' (h hm).unlimited)
  onHeap _ _ hm := .of_sink_eq hm rfl
  print _ text hm := ⟨by simp only [Sink.write, hm], text.toUTF8, by simp only [Sink.write, hm]⟩
  tick _ hm := .of_sink_eq hm rfl
  inFrame _ h hm := ⟨(h hm).unlimited, (h hm).written⟩
  asCall h hm := ⟨(h hm).unlimited, (h hm).written⟩

end PrintsOn
end Machine

/-- What an answer becomes with a sink that takes `total` bytes: the same if that is enough, and
otherwise a failure after so many bytes. -/
inductive Answer.CutTo (total : Nat) : Answer Machine α → Answer Machine α → Prop
  | spent (r : Answer Machine α) : CutTo total .outOfFuel r
  | whole {r : Answer Machine α} {last : Machine} : last ∈ r.state? →
    last.sink.written.size ≤ total → CutTo total r (r.onState (·.capped total))
  | cut {r : Answer Machine α} {last cut : Machine} : last ∈ r.state? →
    total < last.sink.written.size → cut.sink.written = last.sink.written.extract 0 total →
      CutTo total r (.failed .sinkFull cut)

namespace Answer.CutTo

variable {total : Nat}

/-- A change of the machine elsewhere than at its sink. -/
theorem onState {r r' : Answer Machine α} (h : CutTo total r r') {g : Machine → Machine}
    (hsink : ∀ m, (g m).sink = m.sink) (hcapped : ∀ m, g (m.capped total) = (g m).capped total) :
    CutTo total (r.onState g) (r'.onState g) := by
  cases h with
  | spent r' => exact .spent _
  | @whole r last hlast hfits =>
    have heq : (r.onState (·.capped total)).onState g = (r.onState g).onState (·.capped total) := by
      cases r <;> simp only [Answer.onState, hcapped]
    rw [heq]
    exact .whole (Answer.mem_state?_onState.2 ⟨last, hlast, rfl⟩) (by rw [hsink]; exact hfits)
  | @cut r last cut hlast hfull hcut =>
    refine .cut (Answer.mem_state?_onState.2 ⟨last, hlast, rfl⟩) ?_ ?_
    · rw [hsink]
      exact hfull
    · rw [hsink, hsink]
      exact hcut

/-- Once the sink is full, what the run would go on to do does not matter. -/
theorem of_printsOn {r : Answer Machine α} {m cut : Machine}
    (hr : ∀ last ∈ r.state?, m.PrintsOn last) (hfull : total < m.sink.written.size)
    (hcut : cut.sink.written = m.sink.written.extract 0 total) :
    CutTo total r (.failed .sinkFull cut) := by
  have hlast : ∀ last ∈ r.state?, CutTo total r (.failed .sinkFull cut) := by
    intro last hlast
    have hon := hr last hlast
    refine .cut hlast (Nat.lt_of_lt_of_le hfull hon.size_le) ?_
    rw [hcut, hon.extract_eq (Nat.le_of_lt hfull)]
  cases r with
  | done a last => exact hlast last rfl
  | failed d last => exact hlast last rfl
  | outOfFuel => exact .spent _

/-- How far the run comes decides which of the two it is. -/
theorem eq_ite {r r' : Answer Machine α} {last : Machine} (h : CutTo total r r')
    (hlast : last ∈ r.state?) :
    if last.sink.written.size ≤ total then r' = r.onState (·.capped total)
    else ∃ cut, r' = .failed .sinkFull cut ∧
      cut.sink.written = last.sink.written.extract 0 total := by
  cases h with
  | spent => cases hlast
  | whole hlast' hfits =>
    obtain rfl := Option.mem_unique hlast hlast'
    rw [if_pos hfits]
  | @cut r last' cut hlast' hfull hcut =>
    obtain rfl := Option.mem_unique hlast hlast'
    rw [if_neg (Nat.not_le_of_lt hfull)]
    exact ⟨cut, rfl, hcut⟩

end Answer.CutTo

/-- The action differs with a limited sink only in that a full one cuts it off. -/
structure Action.Truncates (x : Action Machine α) : Prop where
  printsOn {m : Machine} : m.sink.room = none → ∀ last ∈ (x m).state?, m.PrintsOn last
  cutTo {m : Machine} {total : Nat} : m.sink.room = none → m.sink.written.size ≤ total →
    (x m).CutTo total (x (m.capped total))

namespace Action.Truncates

open Machine.PrintsOn (passage)

theorem leads {x : Action Machine α} (h : x.Truncates) :
    x.Leads fun m last => m.sink.room = none → m.PrintsOn last :=
  fun _ last hlast hm => h.printsOn hm last hlast

theorem onHeap {x : Action Machine α} (h : x.OnHeap) : x.Truncates where
  printsOn {m} hm last hlast := passage.leads_onHeap h m last hlast hm
  cutTo {m total} hm ht := by
    obtain ⟨r, h', hr⟩ := h m.heap m.current
    rw [hr m rfl rfl, hr (m.capped total) rfl rfl]
    cases r with
    | ok a => exact .whole (r := .done a { m with heap := h' }) rfl ht
    | error d => exact .whole (r := .failed d { m with heap := h' }) rfl ht

theorem tick : Machine.tick.Truncates where
  printsOn {m} hm last hlast := passage.leads_tick m last hlast hm
  cutTo {m total} hm ht := by
    have hfits : (m.toWorld.tick).2.sink.written.size ≤ total := ht
    exact .whole (r := Machine.tick m) rfl hfits

theorem print (text : String) : (Machine.print text).Truncates where
  printsOn {m} hm last hlast := passage.leads_print text m last hlast hm
  cutTo {m total} hm ht := by
    let bytes := (text ++ "\n").toUTF8
    let last : Machine := { m with sink := ⟨m.sink.written ++ bytes, none⟩ }
    have hsize : last.sink.written.size = m.sink.written.size + bytes.size :=
      ByteArray.size_append
    have hprint : Machine.print text m = .done () last := by
      simp only [Machine.print, World.print, Sink.write, hm, if_true]
      rfl
    rw [hprint]
    by_cases hfits : bytes.size ≤ total - m.sink.written.size
    · have hwrite : (m.capped total).sink.write (text ++ "\n") =
          (true, (last.capped total).sink) := by
        simp only [Sink.write, Machine.capped, Machine.allowing, hsize, ← Nat.sub_sub]
        rw [if_pos hfits]
      have hcapped : Machine.print text (m.capped total) = .done () (last.capped total) := by
        simp only [Machine.print, World.print, hwrite, if_true]
        rfl
      rw [hcapped]
      exact .whole (r := .done () last) rfl (by omega)
    · let cut : Sink := ⟨m.sink.written ++ bytes.extract 0 (total - m.sink.written.size), some 0⟩
      have hwrite : (m.capped total).sink.write (text ++ "\n") = (false, cut) := by
        simp only [Sink.write, Machine.capped, Machine.allowing]
        rw [if_neg hfits]
      have hcapped :
          Machine.print text (m.capped total) = .failed .sinkFull { m with sink := cut } := by
        simp only [Machine.print, World.print, hwrite, Bool.false_eq_true, if_false]
        rfl
      have hcut : cut.written = last.sink.written.extract 0 total := by
        have hall : m.sink.written.extract 0 total = m.sink.written := by
          rw [← Nat.max_eq_left ht, ByteArray.extract_zero_max_size]
        rw [ByteArray.extract_append, hall, Nat.zero_sub]
      rw [hcapped]
      exact .cut rfl (by omega) hcut

theorem bind {x : Action Machine α} {f : α → Action Machine β} (hx : x.Truncates)
    (hf : ∀ a, (f a).Truncates) : (x >>= f).Truncates where
  printsOn {m} hm last hlast := passage.leads_bind hx.leads (fun a => (hf a).leads) m last hlast hm
  cutTo {m total} hm ht := by
    have hfirst := hx.printsOn hm
    have hcut := hx.cutTo hm ht
    rw [bind_apply, bind_apply]
    generalize x m = r at hfirst hcut
    generalize x (m.capped total) = r' at hcut
    cases hcut with
    | spent r' => exact .spent _
    | whole hlast hfits =>
      cases r with
      | done a m' =>
        cases hlast
        exact (hf a).cutTo (hfirst _ rfl).unlimited hfits
      | failed d m' => exact .whole hlast hfits
      | outOfFuel => cases hlast
    | cut hlast hfull hcut =>
      cases r with
      | done a m' =>
        cases hlast
        exact .of_printsOn ((hf a).printsOn (hfirst _ rfl).unlimited) hfull hcut
      | failed d m' => exact .cut hlast hfull hcut
      | outOfFuel => cases hlast

theorem inFrame (frame : FrameId) {x : Action Machine α} (hx : x.Truncates) :
    (Machine.inFrame frame x).Truncates where
  printsOn {m} hm last hlast := passage.leads_inFrame frame hx.leads m last hlast hm
  cutTo {m total} hm ht := by
    have hinner := hx.cutTo (m := { m with current := frame }) hm ht
    rw [Machine.inFrame_apply, Machine.inFrame_apply]
    exact hinner.onState (g := fun m' => { m' with current := m.current }) (fun _ => rfl)
      fun _ => rfl

theorem asCall (line : Nat) {x : Action Machine α} (hx : x.Truncates) :
    (Machine.asCall line x).Truncates where
  printsOn {m} hm last hlast := passage.leads_asCall line hx.leads m last hlast hm
  cutTo {m total} hm ht := by
    have hinner := hx.cutTo (m := { m with toWorld := m.enterCall }) hm ht
    have hlimit : (m.capped total).atLimit = m.atLimit := rfl
    rw [Machine.asCall_apply, Machine.asCall_apply, hlimit]
    by_cases hl : m.atLimit
    · rw [if_pos hl, if_pos hl]
      exact .whole (r := .failed _ m) rfl ht
    · rw [if_neg hl, if_neg hl]
      exact hinner.onState (g := fun m' => { m' with toWorld := m'.leaveCall }) (fun _ => rfl)
        fun _ => rfl

theorem fuelSpent : (Action.fuelSpent : Action Machine α).Truncates where
  printsOn _ _ hlast := by cases hlast
  cutTo _ _ := .spent _

theorem inherited : Action.Inherited fun _ x => x.Truncates where
  fuelSpent := .fuelSpent
  onHeap _ _ := .onHeap
  print := .print
  tick := .tick
  bind := .bind
  inFrame := .inFrame
  asCall := .asCall

end Action.Truncates

namespace Machine

/-- A program with a limited sink: the same outcome if the sink is large enough for it, and
otherwise the failure of the sink. -/
theorem interpret_capped {m last : Machine} {fuel total : Nat} {program : List Stmt}
    {d? : Option Diagnostic} (hm : m.sink.room = none) (ht : m.sink.written.size ≤ total)
    (h : m.interpret fuel program = some (d?, last)) :
    m.PrintsOn last ∧
      if last.sink.written.size ≤ total then
        (m.capped total).interpret fuel program = some (d?, last.capped total)
      else ∃ cut, (m.capped total).interpret fuel program = some (some .sinkFull, cut) ∧
        cut.sink.written = last.sink.written.extract 0 total ∧ cut.hadError = true := by
  have htrunc := Action.Truncates.inherited.executeProgram fuel program
  have hon := htrunc.printsOn hm
  have hcut := htrunc.cutTo hm ht
  unfold interpret at h ⊢
  generalize executeProgram fuel program m = r at h hon hcut
  generalize executeProgram fuel program (m.capped total) = r' at hcut
  cases r with
  | done u m' =>
    cases h
    refine ⟨hon last rfl, ?_⟩
    have hends := hcut.eq_ite (show last ∈ (Answer.done u last).state? from rfl)
    split at hends
    next hfits => exact (if_pos hfits).mpr (by rw [hends]; rfl)
    next hfull =>
      obtain ⟨cut, rfl, hwritten⟩ := hends
      exact (if_neg hfull).mpr ⟨_, rfl, hwritten, rfl⟩
  | failed d m' =>
    cases h
    refine ⟨⟨(hon m' rfl).unlimited, (hon m' rfl).written⟩, ?_⟩
    have hends := hcut.eq_ite (show m' ∈ (Answer.failed d m').state? from rfl)
    split at hends
    next hfits => exact (if_pos hfits).mpr (by rw [hends]; rfl)
    next hfull =>
      obtain ⟨cut, rfl, hwritten⟩ := hends
      exact (if_neg hfull).mpr ⟨_, rfl, hwritten, rfl⟩
  | outOfFuel => cases h

/-- A run that ends with an unlimited sink does the same with a sink that takes `n` more bytes, if
it prints no more than that. Otherwise it prints the first `n` bytes of what it would have printed,
and fails because the sink is full. -/
theorem run_truncated {m last : Machine} {fuel : Nat} {source : String} {f? : Option Failure}
    (hm : m.sink.room = none) (h : m.run fuel source = some (f?, last)) (n : Nat) :
    let start := m.sink.written.size
    let output := last.printedFrom start
    if output.size ≤ n then
      (m.allowing n).run fuel source = some (f?, last.allowing (n - output.size))
    else ∃ f cut, (m.allowing n).run fuel source = some (some f, cut) ∧
      f = ⟨.runtime, [⟨0, .sinkFull⟩]⟩ ∧ f.text = "[line 0] Error: sink full" ∧
        cut.printedFrom start = output.extract 0 n ∧ cut.hadError = true := by
  intro start output
  cases hc : compile source with
  | error f =>
    simp only [Machine.run, hc] at h ⊢
    cases h
    have hempty : output.size = 0 := by
      simp only [output, start, World.printedFrom, ByteArray.size_extract]
      omega
    rw [if_pos (by omega), hempty]
    rfl
  | ok program =>
    simp only [Machine.run, hc] at h ⊢
    obtain ⟨⟨d?, last'⟩, hrun, he⟩ := Option.map_eq_some_iff.1 h
    cases he
    obtain ⟨hon, hcapped⟩ := interpret_capped hm (Nat.le_add_right start n) hrun
    have hsize : output.size = last'.sink.written.size - start := by
      simp only [output, World.printedFrom, ByteArray.size_extract]
      omega
    have hle : start ≤ last'.sink.written.size := hon.size_le
    have hallow : m.capped (start + n) = m.allowing n := by
      rw [capped, Nat.add_sub_cancel_left]
    rw [hallow] at hcapped
    by_cases hfits : output.size ≤ n
    · have hroom : start + n - last'.sink.written.size = n - output.size := by omega
      rw [if_pos (by omega), capped, hroom] at hcapped
      rw [if_pos hfits, hcapped]
      rfl
    · rw [if_neg (by omega)] at hcapped
      obtain ⟨cut, hrun', hwritten, herror⟩ := hcapped
      rw [if_neg hfits]
      refine ⟨_, cut, by rw [hrun']; rfl, rfl, by cbv, ?_, herror⟩
      simp only [output, World.printedFrom, hwritten, ByteArray.extract_extract,
        ByteArray.size_extract]
      congr 1 <;> omega

def printingSource : String :=
  "fun f() \x7b print \"ab\"; return \"cd\"; \x7d print f(); -nil;"

/-- The output ends inside what the second `print` writes, and so the error after it is not
reached. -/
theorem run_truncated_print :
    let m := start (some callLimit) .unlimited fun _ => 0
    ∃ last, m.run 16 printingSource =
        some (some ⟨.runtime, [⟨1, .runtime .operandNotNumber⟩]⟩, last) ∧
      ∃ f cut, (m.allowing 4).run 16 printingSource = some (some f, cut) ∧
        f.text = "[line 0] Error: sink full" ∧
          cut.printedFrom m.sink.written.size = "ab\nc".toUTF8 ∧ cut.hadError = true := by
  intro m
  have hrun : (m.run 16 printingSource).map (fun r => (r.1, r.2.printedFrom m.sink.written.size)) =
      some (some ⟨.runtime, [⟨1, .runtime .operandNotNumber⟩]⟩, "ab\ncd\n".toUTF8) := by cbv
  obtain ⟨⟨f?, last⟩, h, he⟩ := Option.map_eq_some_iff.1 hrun
  have hf := congrArg Prod.fst he
  have houtput := congrArg Prod.snd he
  simp only at hf houtput
  have htrunc := run_truncated rfl h 4
  simp only at htrunc
  split at htrunc
  next hfits =>
    rw [houtput] at hfits
    exact absurd hfits (by decide)
  next =>
    obtain ⟨f, cut, hcut, -, htext, hprinted, herror⟩ := htrunc
    refine ⟨last, by rw [h, hf], f, cut, hcut, htext, ?_, herror⟩
    rw [houtput] at hprinted
    rw [hprinted]
    decide

end Machine
end Lox
