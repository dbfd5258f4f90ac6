import WordMachine.CommandLine
import WordMachine.Proofs.ImageTable
import WordMachine.Proofs.Output

/-!
The command that runs an image. It carries out executions on one machine, one after the other up to
the first that does not finish, and then may write the picture of the framebuffer. How it exits is
told by the fault of the execution that failed, or by what became of the picture.
-/

namespace WordMachine.CommandLine

open Machine (Continues Ends Attached ImagesKept)

/-- The exports that are executed: the entry, which in frame mode is left out if the image does not
export it, and in frame mode then the export of every frame. -/
def plan (o : RunOptions) (image : Image) : List String :=
  match o.frames with
  | none => [o.entry]
  | some frames =>
    (if (image.export? o.entry).isSome then [o.entry] else []) ++ List.replicate frames frameEntry

/-- The machine on which the executions take place. -/
def started (files : Files) (o : RunOptions) (image : Image) : Machine :=
  { Machine.new (Loader.directories files (o.modulePaths ++ [Path.parent o.input]))
      o.stackSize o.returnStackSize with
    devices := #[.console {}, .display {}], images := #[image] }

/-- The exit code of a command that a fault has stopped. -/
def exitCode : Fault → UInt32
  | .invalidHeader _ => 1
  | .moduleNotFound _ | .entryNotFound .. => 2
  | _ => 3

/-- An execution of an export, with its outcome and the machine it leaves. It is suspended only if it
is given up after more instructions than anyone would wait for. -/
inductive Executes (id : ModuleId) (entry : String) (m : Machine) : Outcome → Machine → Prop
  | refused {e : Fault} (h : m.enter id entry = .error e) :
    Executes id entry m (.failed e) (m.conclude (.failed e))
  | ran {first k last : Machine} {n : Nat} {outcome : Outcome} (h : m.enter id entry = .ok first)
      (run : Continues n first k) (ends : Ends patience n k outcome last) :
    Executes id entry m outcome (last.conclude outcome)

/-- Executions of exports on one machine, one after the other up to the first that does not finish.
Each of those performed is listed with what it printed. -/
inductive Performs (id : ModuleId) :
    List String → Machine → List (List UInt8) → Outcome → Machine → Prop
  | nothing (m : Machine) : Performs id [] m [] .finished m
  | next {entry : String} {entries : List String} {m k last : Machine} {out : List UInt8}
      {outs : List (List UInt8)} {outcome : Outcome} (h : Executes id entry m .finished k)
      (hout : output k = output m ++ out) (rest : Performs id entries k outs outcome last) :
    Performs id (entry :: entries) m (out :: outs) outcome last
  | stop {entry : String} {entries : List String} {m last : Machine} {out : List UInt8}
      {outcome : Outcome} (h : Executes id entry m outcome last) (hne : outcome ≠ .finished)
      (hout : output last = output m ++ out) : Performs id (entry :: entries) m [out] outcome last

variable {id : ModuleId} {entry : String} {entries : List String} {m k last : Machine}
  {out : List UInt8} {outs : List (List UInt8)} {outcome : Outcome} {image : Image} {trace : Trace}

theorem executes_execute (id : ModuleId) (entry : String) (trace : Trace) (m : Machine) :
    Executes id entry m (m.execute id entry patience trace).1
      (m.execute id entry patience trace).2.2 := by
  rw [Machine.execute]
  cases he : m.enter id entry with
  | error e => exact .refused he
  | ok first =>
    obtain ⟨n, k, -, hc, hends⟩ := Machine.run_ends patience trace first
    exact .ran he hc hends

/-- A machine that executes the image at the first place, with a console and a display; something
had been printed at an earlier time. -/
structure Serves (image : Image) (out : List UInt8) (m : Machine) : Prop where
  attached : ∃ c d, m.Attached c d ∧ out <+: c.output
  current : m.current = 0
  image : ∃ image', m.images[0]? = some image' ∧ image.Alike image'

theorem output_of_attached {c : Console} {d : Display} (h : m.Attached c d) :
    output m = c.output := by
  rw [output, h.devices]
  rfl

namespace Serves

theorem of_devices (h : Serves image out m) (hd : k.devices = m.devices) (hc : k.current = 0)
    (hi : ImagesKept m k) : Serves image out k := by
  obtain ⟨c, d, ha, hp⟩ := h.attached
  obtain ⟨image', hi', halike⟩ := h.image
  obtain ⟨image'', hi'', halike'⟩ := hi 0 image' hi'
  exact ⟨⟨c, d, ⟨hd.trans ha.devices, ha.unlimited⟩, hp⟩, hc, image'', hi'', halike.trans halike'⟩

theorem step (h : Serves image out m) : Serves image out m.step.2 := by
  obtain ⟨c, d, ha, hp⟩ := h.attached
  obtain ⟨c', d', ha', hp'⟩ := ha.step
  obtain ⟨image', hi, halike⟩ := h.image
  obtain ⟨image'', hi', halike'⟩ := Machine.ofHistory_imagesKept.toOfWork.step m 0 image' hi
  exact ⟨⟨c', d', ha', hp.trans hp'⟩, (Machine.ofWork_othersKept.step m).1.trans h.current,
    image'', hi', halike.trans halike'⟩

theorem fetchOpcode (h : Serves image out m) : Serves image out m.fetchOpcode.2 := by
  refine h.of_devices ?_ ((Machine.ofWork_othersKept.fetchOpcode m).1.trans h.current)
    (Machine.ofHistory_imagesKept.toOfWork.fetchOpcode m)
  rw [Machine.fetchOpcode_snd]
  exact Machine.devices_perform (fun _ _ h => by cases h) _

theorem conclude (h : Serves image out m) (outcome : Outcome) :
    Serves image out (m.conclude outcome) := by
  have hi := Machine.ofHistory_imagesKept.conclude m outcome
  obtain ⟨_, he⟩ := m.conclude_eq outcome
  rw [he] at hi ⊢
  exact h.of_devices rfl h.current hi

theorem enter (h : Serves image out m) (he : m.enter (.image 0) entry = .ok k) :
    Serves image out k := by
  have hi := Machine.ofHistory_imagesKept.enter he
  obtain ⟨-, offset, rfl⟩ := Machine.enter_eq_ok he
  exact h.of_devices rfl rfl hi

theorem executes (h : Serves image out m) (he : Executes (.image 0) entry m outcome k) :
    Serves image out k := by
  cases he with
  | refused => exact h.conclude _
  | ran henter hrun hends =>
    have hfirst := h.enter henter
    have hlast := hends.keep (fun _ => step) (fun _ => fetchOpcode)
      (hrun.keep (fun _ => step) hfirst)
    exact hlast.conclude _

/-- What is printed by now may be taken as what had been printed before. -/
theorem output (h : Serves image out m) :
    Serves image (output m) m ∧ out <+: output m := by
  obtain ⟨c, d, ha, hp⟩ := h.attached
  have hout := output_of_attached ha
  rw [hout]
  exact ⟨⟨⟨c, d, ha, List.prefix_rfl⟩, h.current, h.image⟩, hp⟩

/-- An execution adds to the output. -/
theorem output_executes (h : Serves image out m) (he : Executes (.image 0) entry m outcome k) :
    ∃ more, CommandLine.output k = CommandLine.output m ++ more := by
  obtain ⟨hm, -⟩ := h.output
  obtain ⟨-, more, hk⟩ := (hm.executes he).output
  exact ⟨more, hk.symm⟩

/-- There is an image to run, so that no execution fails for want of one. -/
theorem ne_nothingLoaded (h : Serves image out m) {e : Fault}
    (he : Executes (.image 0) entry m (.failed e) k) : e ≠ .nothingLoaded := by
  rintro rfl
  cases he with
  | refused he =>
    rcases Machine.enter_eq_error he with ⟨_, he⟩ | he <;> cases he
  | ran henter hrun hends =>
    have hk := hrun.keep (fun _ => step) (h.enter henter)
    cases hends with
    | failed hs =>
      obtain ⟨c, d, ha, -⟩ := hk.attached
      exact Machine.step_ne_nothingLoaded ha.standard (congrArg Prod.fst hs)

theorem performs (h : Serves image out m)
    (hp : Performs (.image 0) entries m outs outcome last) : Serves image out last := by
  induction hp with
  | nothing => exact h
  | next he _ _ ih => exact ih (h.executes he)
  | stop he _ _ => exact h.executes he

theorem performs_ne_nothingLoaded (h : Serves image out m)
    (hp : Performs (.image 0) entries m outs outcome last) :
    outcome ≠ .failed .nothingLoaded := by
  induction hp with
  | nothing => nofun
  | next he _ _ ih => exact ih (h.executes he)
  | stop he _ _ =>
    rintro rfl
    exact h.ne_nothingLoaded he rfl

end Serves

namespace Performs

theorem output_eq (h : Performs id entries m outs outcome last) :
    output last = output m ++ outs.flatten := by
  induction h with
  | nothing => rw [List.flatten_nil, List.append_nil]
  | next _ hout _ ih => rw [ih, hout, List.flatten_cons, List.append_assoc]
  | stop _ _ hout => rw [hout, List.flatten_cons, List.flatten_nil, List.append_nil]

/-- What is to be done after executions that finish is done after them. -/
theorem append {entries' : List String} {outs' : List (List UInt8)}
    (h : Performs id entries m outs .finished k) (h' : Performs id entries' k outs' outcome last) :
    Performs id (entries ++ entries') m (outs ++ outs') outcome last := by
  generalize ho : Outcome.finished = ended at h
  induction h with
  | nothing => exact h'
  | next he hout _ ih => exact .next he hout (ih h' ho)
  | stop _ hne _ => exact absurd ho.symm hne

/-- After one that does not finish, nothing more is done. -/
theorem append_of_ne (h : Performs id entries m outs outcome last) (hne : outcome ≠ .finished)
    (entries' : List String) : Performs id (entries ++ entries') m outs outcome last := by
  induction h with
  | nothing => exact absurd rfl hne
  | next he hout _ ih => exact .next he hout (ih hne)
  | stop he hne hout => exact .stop he hne hout

end Performs

/-- An export that is to be run so many times is executed so often, or up to the first time that it
does not finish. By induction on the times. -/
theorem performs_runTimes (h : Serves image out m) (entry : String) (times : Nat) (trace : Trace) :
    ∃ outs, Performs (.image 0) (List.replicate times entry) m outs
      (runTimes (.image 0) entry times trace m).1
      (runTimes (.image 0) entry times trace m).2.2 := by
  induction times generalizing m trace with
  | zero => exact ⟨[], .nothing m⟩
  | succ times ih =>
    have he := executes_execute (.image 0) entry trace m
    obtain ⟨more, hmore⟩ := h.output_executes he
    rw [runTimes, List.replicate_succ]
    cases hx : m.execute (.image 0) entry patience trace with
    | mk outcome ended =>
      obtain ⟨trace', k⟩ := ended
      rw [hx] at he hmore
      cases outcome with
      | finished =>
        obtain ⟨outs, hp⟩ := ih (h.executes he) trace'
        exact ⟨more :: outs, .next he hmore hp⟩
      | failed e => exact ⟨[more], .stop he nofun hmore⟩
      | suspended => exact ⟨[more], .stop he nofun hmore⟩

theorem performs_runAll (h : Serves image out m) (hi : m.images = #[image]) (o : RunOptions)
    (trace : Trace) :
    ∃ outs, Performs (.image 0) (plan o image) m outs (runAll o (.image 0) trace m).1
      (runAll o (.image 0) trace m).2.2 := by
  have himage : m.image? (.image 0) = some image := by
    rw [Machine.image?, hi]
    rfl
  unfold runAll plan
  cases o.frames with
  | none => exact performs_runTimes h o.entry 1 trace
  | some frames =>
    dsimp only
    rw [himage, Option.any_some]
    generalize hn : (if (image.export? o.entry).isSome = true then 1 else 0) = times
    have hentries : (if (image.export? o.entry).isSome = true then [o.entry] else []) =
        List.replicate times o.entry := by
      rw [← hn]
      split <;> rfl
    rw [hentries]
    obtain ⟨outs, hp⟩ := performs_runTimes h o.entry times trace
    cases hx : runTimes (.image 0) o.entry times trace m with
    | mk outcome ended =>
      obtain ⟨trace', k⟩ := ended
      rw [hx] at hp
      cases outcome with
      | finished =>
        obtain ⟨outs', hp'⟩ := performs_runTimes (h.performs hp) frameEntry frames trace'
        exact ⟨outs ++ outs', hp.append hp'⟩
      | failed e => exact ⟨outs, hp.append_of_ne (by rintro ⟨⟩) _⟩
      | suspended => exact ⟨outs, hp.append_of_ne (by rintro ⟨⟩) _⟩

/-- What is reported in the end, if writing a file may fail. -/
def Ending.reported (e : Ending) (writes : String → List UInt8 → Option FileFault) : Report :=
  e.report (e.write.bind fun (path, bytes) => writes path bytes)

theorem exit_ofFault {e : Fault} (h : e ≠ .nothingLoaded) : (Report.ofFault e).exit = exitCode e := by
  cases e with
  | nothingLoaded => exact absurd rfl h
  | _ => rfl

theorem exitCode_ne_zero (e : Fault) : exitCode e ≠ 0 := by
  unfold exitCode
  split <;> decide

theorem out_ofFault (e : Fault) : (Report.ofFault e).out = [] := by
  unfold Report.ofFault
  split
  · rfl
  · split <;> rfl

theorem serves_started (files : Files) (o : RunOptions) (image : Image) :
    Serves image [] (started files o image) :=
  ⟨⟨{}, {}, ⟨rfl, rfl⟩, List.prefix_rfl⟩, rfl, image, rfl, .refl image⟩

theorem Serves.size_code (h : Serves image out m) : m.code.size = image.code.size := by
  obtain ⟨image', hi, ha⟩ := h.image
  have hcode : m.code = image'.code := by
    rw [Machine.code, Machine.currentImage?, h.current, hi]
  rw [hcode, ha.size]

/-- The framebuffer of a display, as far as it lies inside the code. -/
def frameBytes (d : Display) (code : Code) : List UInt8 :=
  (code.extract d.buffer (d.buffer + 16384)).toList

theorem frame?_of_attached {c : Console} {d : Display} (h : m.Attached c d) :
    frame? m = if d.buffer + 16384 ≤ m.code.size then some (frameBytes d m.code) else none := by
  have hframe : frame? m = d.frame? m.code := by
    rw [frame?, h.devices]
    simp only [List.findSome?_cons, List.findSome?_nil]
    cases d.frame? m.code <;> rfl
  rw [hframe, Display.frame?, Code.slice?, Code.holds]
  simp only [decide_eq_true_eq]
  rfl

/-- How the command ends after its executions. -/
def ended (o : RunOptions) (reads : List String) : Machine.Execution → Ending
  | (.failed e, trace, m) => .plain reads ((Report.ofFault e).after (output m) (traceText trace))
  | (.suspended, trace, m) =>
    .plain reads
      ((Report.failing 3 "runtime error: run given up").after (output m) (traceText trace))
  | (.finished, trace, m) =>
    let report (r : Report) : Report := r.after (output m) (traceText trace)
    match o.dumpFrame with
    | none => .plain reads (report {})
    | some path =>
      match frame? m with
      | none =>
        .plain reads (report (.failing 1 "error: display buffer does not fit in module memory"))
      | some frame =>
        { reads
          write := some (path, Display.picture frame)
          report := fun
            | some e => report (.cannotWrite path e)
            | none => report {} }

variable (o : RunOptions) (reads : List String) (trace : Trace) (m : Machine)
  (writes : String → List UInt8 → Option FileFault)

theorem reported_failed {e : Fault} (he : e ≠ .nothingLoaded) :
    ((ended o reads (.failed e, trace, m)).reported writes).out = output m ∧
      ((ended o reads (.failed e, trace, m)).reported writes).exit = exitCode e := by
  refine ⟨?_, exit_ofFault he⟩
  show output m ++ (Report.ofFault e).out = output m
  rw [out_ofFault, List.append_nil]

theorem reported_suspended :
    ((ended o reads (.suspended, trace, m)).reported writes).out = output m ∧
      ((ended o reads (.suspended, trace, m)).reported writes).exit = 3 :=
  ⟨List.append_nil _, rfl⟩

/-- After executions that all finished, only a picture that was asked for can go wrong. -/
theorem reported_finished {m : Machine} {c : Console} {d : Display} (h : m.Attached c d) :
    let ending := ended o reads (.finished, trace, m)
    (ending.reported writes).out = output m ∧
      ((ending.reported writes).exit = 0 ∨ (ending.reported writes).exit = 1) ∧
      ((ending.reported writes).exit = 0 ↔ ∀ path, o.dumpFrame = some path →
        d.buffer + 16384 ≤ m.code.size ∧
          writes path (Display.picture (frameBytes d m.code)) = none) ∧
      ∀ path picture, ending.write = some (path, picture) →
        o.dumpFrame = some path ∧ picture = Display.picture (frameBytes d m.code) := by
  have hone : (1 : UInt32) ≠ 0 := by decide
  unfold ended
  dsimp only
  cases o.dumpFrame with
  | none => exact ⟨List.append_nil _, .inl rfl, iff_of_true rfl nofun, nofun⟩
  | some path =>
    dsimp only
    rw [frame?_of_attached h]
    by_cases hfits : d.buffer + 16384 ≤ m.code.size
    · rw [if_pos hfits]
      dsimp only [Ending.reported, Option.bind_some]
      have hwrite (path' : String) (picture : List UInt8)
          (h : some (path, Display.picture (frameBytes d m.code)) = some (path', picture)) :
          some path = some path' ∧ picture = Display.picture (frameBytes d m.code) := by
        cases h
        exact ⟨rfl, rfl⟩
      cases hw : writes path (Display.picture (frameBytes d m.code)) with
      | none =>
        refine ⟨List.append_nil _, .inl rfl, iff_of_true rfl ?_, hwrite⟩
        rintro _ ⟨⟩
        exact ⟨hfits, hw⟩
      | some fault =>
        refine ⟨List.append_nil _, .inr rfl, iff_of_false hone fun hall => ?_, hwrite⟩
        cases hw.symm.trans (hall path rfl).2
    · rw [if_neg hfits]
      exact ⟨List.append_nil _, .inr rfl,
        iff_of_false hone fun hall => hfits (hall path rfl).1, nofun⟩

/-- The command comes to its executions when the file is an image and the stacks can be made. -/
theorem run_eq {files : Files} {o : RunOptions} {bytes : List UInt8} (traced : Bool)
    (hread : files o.input = .ok bytes) (hparse : Image.parse bytes = .ok image)
    (hoperands : o.stackSize ≤ maxCapacity) (hreturns : o.returnStackSize ≤ maxCapacity) :
    ∃ trace reads,
      run files traced o = ended o reads (runAll o (.image 0) trace (started files o image)) := by
  have hfits : ¬ (maxCapacity < o.stackSize ∨ maxCapacity < o.returnStackSize) := by omega
  have hloaded : ((((Machine.new (Loader.directories files (o.modulePaths ++ [Path.parent o.input]))
      o.stackSize o.returnStackSize).addDevice (.console {})).2.addDevice (.display {})).2.load bytes) =
      .ok (.image 0, started files o image) := by
    rw [Machine.load, hparse]
    rfl
  rw [run, hread]
  dsimp only
  rw [if_neg hfits, runBytes]
  dsimp only
  rw [hloaded]
  dsimp only
  refine ⟨⟨if traced then patience else 0, 0, []⟩, ?_⟩
  generalize runAll o (.image 0) _ (started files o image) = x
  obtain ⟨outcome, trace, last⟩ := x
  cases outcome <;> exact ⟨_, rfl⟩

/-- The command executes, on one machine and by the id of the image, whatever the image is called,
what it is asked for, up to the first execution that does not finish. It prints what the executions
print. A fault decides the exit code, and then no file is written. Without one, the exit code is 0
unless a picture was asked for and the framebuffer does not fit in the memory of the image or the
file cannot be written. -/
theorem run_performs_plan (files : Files) (traced : Bool) (o : RunOptions) (bytes : List UInt8)
    (image : Image) (writes : String → List UInt8 → Option FileFault)
    (hread : files o.input = .ok bytes) (hparse : Image.parse bytes = .ok image)
    (hoperands : o.stackSize ≤ maxCapacity) (hreturns : o.returnStackSize ≤ maxCapacity) :
    ∃ outs outcome last c d,
      Performs (.image 0) (plan o image) (started files o image) outs outcome last ∧
      last.devices = #[.console c, .display d] ∧
      let ending := run files traced o
      let report := ending.reported writes
      report.out = outs.flatten ∧
      (report.exit = 0 ↔ outcome = .finished ∧ ∀ path, o.dumpFrame = some path →
        d.buffer + 16384 ≤ image.code.size ∧
          writes path (Display.picture (frameBytes d last.code)) = none) ∧
      (outcome = .finished → report.exit = 0 ∨ report.exit = 1) ∧
      (∀ e, outcome = .failed e → report.exit = exitCode e) ∧
      (outcome = .suspended → report.exit = 3) ∧
      (outcome ≠ .finished → ending.write = none) ∧
      ∀ path picture, ending.write = some (path, picture) →
        o.dumpFrame = some path ∧ picture = Display.picture (frameBytes d last.code) := by
  have hs := serves_started files o image
  obtain ⟨trace, reads, hrun⟩ := run_eq traced hread hparse hoperands hreturns
  obtain ⟨outs, hp⟩ := performs_runAll hs rfl o trace
  cases hx : runAll o (.image 0) trace (started files o image) with
  | mk outcome ended =>
    obtain ⟨trace', last⟩ := ended
    rw [hx] at hp hrun
    dsimp only at hp
    have hlast := hs.performs hp
    have hout : output last = outs.flatten := hp.output_eq
    obtain ⟨c, d, ha, -⟩ := hlast.attached
    refine ⟨outs, outcome, last, c, d, hp, ha.devices, ?_⟩
    dsimp only
    rw [hrun, ← hout, ← hlast.size_code]
    cases outcome with
    | failed e =>
      have he : e ≠ .nothingLoaded := fun he =>
        hs.performs_ne_nothingLoaded hp (congrArg Outcome.failed he)
      obtain ⟨hprinted, hexit⟩ := reported_failed o reads trace' last writes he
      refine ⟨hprinted, ?_, nofun, ?_, nofun, fun _ => rfl, nofun⟩
      · rw [hexit]
        exact iff_of_false (exitCode_ne_zero e) (by rintro ⟨h, -⟩; cases h)
      · rintro _ ⟨⟩
        exact hexit
    | suspended =>
      obtain ⟨hprinted, hexit⟩ := reported_suspended o reads trace' last writes
      refine ⟨hprinted, ?_, nofun, nofun, fun _ => hexit, fun _ => rfl, nofun⟩
      rw [hexit]
      exact iff_of_false (by decide) (by rintro ⟨h, -⟩; cases h)
    | finished =>
      obtain ⟨hprinted, hexit, hzero, hwrite⟩ := reported_finished o reads trace' writes ha
      refine ⟨hprinted, ?_, fun _ => hexit, nofun, nofun, fun h => absurd rfl h, hwrite⟩
      rw [hzero, eq_self, true_and]

/-- An image that goes by the name of the console writes a letter when it is entered, and has no
export for the two frames that are asked for. -/
theorem run_performs_plan_without_frame :
    let bytes := [6, 115, 121, 115, 116, 101, 109, 1, 5, 101, 110, 116, 114, 121, 0, 0,
      12, 65, 0, 12, 12, 0, 13, 12, 1, 0, 9, 8, 115, 121, 115, 116, 101, 109, 0]
    let image : Image := {
      name := "system", exports := [⟨"entry", 0⟩], code := (bytes.drop 16).toArray }
    let files : Files := fun _ => .ok bytes
    let o : RunOptions := { input := "a.wvm", frames := some 2, dumpFrame := some "a.pgm" }
    let report := (run files false o).reported fun _ _ => none
    (∃ outs e last, Performs (.image 0) ["entry", "frame", "frame"] (started files o image) outs
      (.failed e) last ∧ exitCode e = 2 ∧ outs.flatten = [65]) ∧
    report.exit = 2 ∧ report.out = [65] ∧ (run files false o).write = none := by
  intro bytes image files o report
  have hexit : report.exit = 2 := by decide +kernel
  have hout : report.out = [65] := by decide +kernel
  obtain ⟨outs, outcome, last, c, d, hp, -, hprinted, -, hfinished, hfailed, hsuspended, hwrite, -⟩ :=
    run_performs_plan files false o bytes image (fun _ _ => none) rfl (by decide +kernel)
      (by decide) (by decide)
  have hplan : plan o image = ["entry", "frame", "frame"] := by decide +kernel
  rw [hplan] at hp
  cases outcome with
  | finished =>
    rcases hfinished rfl with h | h <;> cases hexit.symm.trans h
  | suspended => cases hexit.symm.trans (hsuspended rfl)
  | failed e =>
    exact ⟨⟨outs, e, last, hp, (hfailed e rfl).symm.trans hexit, hprinted.symm.trans hout⟩, hexit,
      hout, hwrite nofun⟩

end WordMachine.CommandLine
