import Cassette.Proofs.Scheduler.Budget
import Cassette.Proofs.Scheduler.Transcript

/-!
# What a run tells of itself

A host sets up tasks on a fresh scheduler, gives commands, asks questions and advances the
clock; the tasks do the same but for the clock.  The transcript of such a run is the one that
the bag gives, it tells at each moment which tasks are armed for which cycles, and from it
follows that every occurrence fires exactly once and on its due cycle, unless it is cancelled
or replaced before.

## Main definitions

* `Tells` — the transcript tells what is on the agenda.
* `Continues` — a recorded run adds to a transcript and keeps it true.
* `record`, `Bag.record` — the recorded run of a host on a fresh scheduler or bag.
* `report` — what is seen of a run from outside.

## Main results

* `run_continues`, `advance_continues` — every run keeps its transcript true.
* `run_settles` — below the end of time some limit is high enough for a host.
* `record_refines` — **the scheduler does what the bag does**.
-/

namespace Cassette.Scheduler

variable {β C : Type}

/-! ### Transcripts that tell what is on the agenda -/

/-- The transcript tells what is on the agenda, and is punctual. -/
structure Tells (s : Scheduler β) (log : Transcript) : Prop where
  orderly : s.Orderly
  due : ∀ task, (s.occurrence? task).map (·.due) = due? log task
  punctual : Punctual log

namespace Tells

variable {s : Scheduler β} {log : Transcript}

theorem new : Tells ({} : Scheduler β) [] := ⟨.new, fun _ => rfl, trivial⟩

theorem keep (h : Tells s log) {o : Observation} (hp : Punctual (o :: log))
    (hdue : ∀ task, due? (o :: log) task = due? log task) : Tells s (o :: log) :=
  ⟨h.orderly, fun task => by rw [hdue, h.due], hp⟩

theorem dismiss (h : Tells s log) {o : Observation} {task : Handle} (hp : Punctual (o :: log))
    (hdue : ∀ other, due? (o :: log) other = if task = other then none else due? log other) :
    Tells (s.dismiss task) (o :: log) := by
  refine ⟨h.orderly.dismiss task, ?_, hp⟩
  intro other
  rw [occurrence?_dismiss, hdue]
  split
  · rfl
  · exact h.due other

theorem place (h : Tells s log) {o : Observation} {task : Handle} {delay : Cycles}
    (hown : s.Owns task) (hp : Punctual (o :: log))
    (hdue : ∀ other, due? (o :: log) other
      = if task = other then some (s.epoch + delay) else due? log other) :
    Tells ((s.dismiss task).place task delay) (o :: log) := by
  refine ⟨?_, ?_, hp⟩
  · exact (h.orderly.dismiss task).place hown (fun e he => (mem_agenda_dismiss.mp he).2) delay
  · intro other
    rw [occurrence?_place, hdue]
    split
    · rfl
    · exact h.due other

theorem command (h : Tells s log) {c : Command} {s' : Scheduler β} (ha : c.apply s = .ok s') :
    Tells s' (.commanded c s'.epoch :: log) := by
  have hp : Punctual (.commanded c s'.epoch :: log) := h.punctual
  rw [epoch_of_apply ha] at hp ⊢
  cases c with
  | arm task delay =>
    rw [Command.apply, arm_eq] at ha
    split at ha
    · simp at ha
    · split at ha
      · next hown =>
        obtain rfl := Except.ok.inj ha
        exact h.place hown hp fun other => rfl
      · simp at ha
  | rearm task delay =>
    rw [Command.apply, rearm_eq] at ha
    split at ha
    · next hown =>
      split at ha
      · simp at ha
      · obtain rfl := Except.ok.inj ha
        exact h.place hown hp fun other => rfl
    · simp at ha
  | keepArmed task run delay =>
    rw [Command.apply, keepArmed_eq] at ha
    split at ha
    · next hown =>
      cases run with
      | false =>
        obtain rfl := Except.ok.inj ha
        exact h.dismiss hp fun other => rfl
      | true =>
        rw [if_pos rfl] at ha
        -- an armed task keeps its due cycle, and the others get a new one
        have hdue := h.due task
        split at ha
        · next hsome =>
          obtain rfl := Except.ok.inj ha
          refine h.keep hp fun other => ?_
          rw [due?]
          split
          · next heq =>
            obtain ⟨e, he⟩ := Option.isSome_iff_exists.mp hsome
            rw [← heq, ← hdue, he]
            rfl
          · rfl
        · next hnone =>
          split at ha
          · simp at ha
          · obtain rfl := Except.ok.inj ha
            refine h.place hown hp fun other => ?_
            rw [due?]
            split
            · next heq =>
              rw [Option.not_isSome_iff_eq_none] at hnone
              rw [← heq, ← hdue, hnone]
              rfl
            · rfl
    · simp at ha
  | cancel task =>
    rw [Command.apply, cancel] at ha
    split at ha
    · obtain rfl := Except.ok.inj ha
      exact h.dismiss hp fun other => rfl
    · simp at ha

theorem register (h : Tells s log) (body : β) :
    Tells (s.register body).2 (.registered (s.register body).1 :: log) :=
  ⟨h.orderly.register body, h.due, h.punctual⟩

theorem fired (h : Tells s log) {e : Entry} {rest : List Entry} (hs : s.agenda = e :: rest) :
    Tells (s.takeOut e) (.fired e.task e.due :: log) := by
  have hmem : e ∈ s.agenda := by rw [hs]; exact List.mem_cons_self
  have hocc : s.occurrence? e.task = some e := h.orderly.occurrence?_eq_some.mpr ⟨hmem, rfl⟩
  refine ⟨h.orderly.takeOut e, ?_, ?_, h.punctual⟩
  · intro task
    have hsingle := h.orderly.single
    rw [hs, List.pairwise_cons] at hsingle
    have hdue := h.due task
    rw [due?]
    unfold occurrence? at hdue ⊢
    change (s.agenda.tail.find? (·.task = task)).map (·.due) = _
    rw [hs] at hdue ⊢
    split
    · -- no other entry is for the task that fires, so it is left without one
      next heq =>
      rw [Option.map_eq_none_iff, List.tail_cons, List.find?_eq_none]
      intro f hf
      rw [← heq]
      simpa using (hsingle.1 f hf).symm
    · next hne =>
      rw [← hdue, List.tail_cons, List.find?_cons_of_neg (by simpa using hne)]
  · rw [← h.due, hocc]
    rfl

theorem putBack (h : Tells s log) (task : Handle) (body : β) : Tells (s.putBack task body) log :=
  ⟨h.orderly.putBack task body, h.due, h.punctual⟩

/-- With nothing due any more the clock may be set, and read. -/
theorem polled (h : Tells s log) (hidle : ∀ e ∈ s.agenda.head?, s.epoch < e.due) :
    Tells s (.polled s.epoch :: log) := by
  refine h.keep ⟨?_, h.punctual⟩ fun task => rfl
  intro task due hdue
  rw [← h.due, Option.map_eq_some_iff] at hdue
  obtain ⟨e, he, rfl⟩ := hdue
  exact h.orderly.later hidle e (h.orderly.occurrence?_eq_some.mp he).1

end Tells

/-! ### Recorded runs -/

/-- However a recorded run ends, it has added to the transcript `log` and stayed punctual, and
if it comes to its end the transcript tells what is on the agenda then.  `view` is the
scheduler, the context and the transcript in a result. -/
inductive Continues {α : Type} (view : α → Scheduler β × C × Transcript) (log : Transcript) :
    Except (Fault × C × Transcript) α → Prop where
  | ok {a : α} (tells : Tells (view a).1 (view a).2.2) (more : log <:+ (view a).2.2) :
      Continues view log (.ok a)
  | error {stop : Fault × C × Transcript} (punctual : Punctual stop.2.2)
      (more : log <:+ stop.2.2) : Continues view log (.error stop)

theorem Continues.of_suffix {α : Type} {view : α → Scheduler β × C × Transcript}
    {log later : Transcript} {x : Except (Fault × C × Transcript) α}
    (h : Continues view later x) (hsuffix : log <:+ later) : Continues view log x := by
  cases h with
  | ok tells more => exact .ok tells (hsuffix.trans more)
  | error punctual more => exact .error punctual (hsuffix.trans more)

theorem Continues.of_cons {α : Type} {view : α → Scheduler β × C × Transcript} {o : Observation}
    {log : Transcript} {x : Except (Fault × C × Transcript) α}
    (h : Continues view (o :: log) x) : Continues view log x :=
  h.of_suffix (List.suffix_cons o log)

/-- The recorded runs of the poll `poll` continue their transcripts and leave nothing due. -/
def PollContinues (poll : Cycles → Scheduler β → C × Transcript →
    Except (Fault × C × Transcript) (Scheduler β × C × Transcript)) : Prop :=
  ∀ (s : Scheduler β) (log : Transcript) (cycles : Cycles) (context : C), Tells s log →
    Continues id log (poll cycles s (context, log)) ∧
      ∀ out, poll cycles s (context, log) = .ok out →
        ∀ e ∈ out.1.agenda.head?, out.1.epoch < e.due

section

variable {poll : Cycles → Scheduler β → C × Transcript →
  Except (Fault × C × Transcript) (Scheduler β × C × Transcript)}

theorem run_poll_continues (hpoll : PollContinues poll) {cycles : Cycles} {next : Routine β C}
    (hnext : ∀ {s : Scheduler β} {log : Transcript}, Tells s log → ∀ context,
      Continues Prod.snd log (next.recorded.run poll s (context, log)))
    {s : Scheduler β} {log : Transcript} (h : Tells s log) (context : C) :
    Continues Prod.snd (.polling (s.epoch + cycles) :: log)
      ((Routine.poll cycles next).recorded.run poll s (context, log)) := by
  rw [run_recorded_poll]
  have hpolling : Tells s (.polling (s.epoch + cycles) :: log) := h.keep h.punctual fun _ => rfl
  obtain ⟨hp, hidle⟩ := hpoll s _ cycles context hpolling
  cases hx : poll cycles s (context, .polling (s.epoch + cycles) :: log) with
  | error stop =>
    rw [hx] at hp
    cases hp with
    | error punctual more => exact .error punctual more
  | ok out =>
    rw [hx] at hp
    cases hp with
    | ok tells more =>
      exact (hnext (tells.polled (hidle out hx)) out.2.1).of_cons.of_suffix more

/-- A recorded routine continues its transcript. -/
theorem run_continues (hpoll : PollContinues poll) (r : Routine β C) {s : Scheduler β}
    {log : Transcript} (h : Tells s log) (context : C) :
    Continues Prod.snd log (r.recorded.run poll s (context, log)) := by
  induction r generalizing s log context with
  | finish body => exact .ok h (List.suffix_refl log)
  | command c next ih =>
    rw [run_recorded_command]
    cases ha : c.apply s with
    | ok s' => exact (ih (h.command ha) context).of_cons
    | error fault => exact .error h.punctual (List.suffix_refl log)
  | register body next ih =>
    rw [run_recorded_register]
    exact (ih _ (h.register body) context).of_cons
  | ask q next ih =>
    rw [run_recorded_ask]
    cases q.ask s with
    | ok answer =>
      have htold : Tells s (.told q answer :: log) := h.keep h.punctual fun _ => rfl
      exact (ih answer htold context).of_cons
    | error fault => exact .error h.punctual (List.suffix_refl log)
  | read next ih => exact ih context h context
  | write written next ih => exact ih h written
  | poll cycles next ih => exact (run_poll_continues hpoll ih h context).of_cons

end

theorem noPoll_continues : PollContinues (@noPoll β (C × Transcript)) := by
  intro s log cycles context h
  refine ⟨?_, fun out hout => by simp at hout⟩
  have hp : Punctual (Fault.overrun, context, log).2.2 := h.punctual
  exact .error hp (List.suffix_refl log)

variable {behave : Behaviour β C}

theorem fire_continues (behave : Behaviour β C) {s : Scheduler β} {log : Transcript} {e : Entry}
    {rest : List Entry} (h : Tells s log) (hs : s.agenda = e :: rest) (context : C) :
    Continues id log (fire (recordedBehaviour behave) e s (context, log)) := by
  unfold fire
  cases s.body? e.task with
  | none => exact .error h.punctual (List.suffix_refl log)
  | some body =>
    have hrun : Continues Prod.snd (.fired e.task (s.takeOut e).epoch :: log)
        ((behave body e.task).recorded.run noPoll (s.takeOut e)
          (context, .fired e.task (s.takeOut e).epoch :: log)) :=
      run_continues noPoll_continues _ (h.fired hs) context
    simp only [run_recordedBehaviour]
    have hrun := hrun.of_cons
    generalize (behave body e.task).recorded.run noPoll (s.takeOut e) _ = x at hrun
    cases hrun with
    | error punctual more => exact .error punctual more
    | ok tells more => exact .ok (tells.putBack e.task _) more

theorem advance_continues (hb : NeverPoll behave) (limit : Nat) {target : Cycles}
    {s : Scheduler β} {log : Transcript} (h : Tells s log) (context : C) :
    Continues id log (advance (recordedBehaviour behave) limit target s (context, log)) := by
  induction limit generalizing s log context with
  | zero => exact .error h.punctual (List.suffix_refl log)
  | succ limit ih =>
    by_cases hidle : ∀ e ∈ s.agenda.head?, target < e.due
    · rw [advance_of_idle hidle]
      exact .ok ⟨h.orderly.setEpoch target, h.due, h.punctual⟩ (List.suffix_refl log)
    · obtain ⟨e, rest, hs, hdue⟩ := exists_due hidle
      rw [advance_cons hb.recorded hs hdue]
      have hf := fire_continues behave h hs context
      generalize fire (recordedBehaviour behave) e s (context, log) = x at hf
      cases hf with
      | error punctual more => exact .error punctual more
      | ok tells more => exact (ih tells _).of_suffix more

/-- After an advance the clock shows the target, and nothing is due. -/
theorem idle_of_advance (hb : NeverPoll behave) {limit : Nat} {target : Cycles}
    {s s' : Scheduler β} {context context' : C}
    (h : advance behave limit target s context = .ok (s', context')) :
    ∀ e ∈ s'.agenda.head?, s'.epoch < e.due := by
  obtain ⟨s₁, -, rfl, hidle⟩ :=
    advance_induct hb (fun _ _ => True) (fun _ _ _ _ => trivial) trivial h
  exact hidle

theorem poll_continues (hb : NeverPoll behave) (limit : Nat) :
    PollContinues (poll (recordedBehaviour behave) limit) :=
  fun _ _ _ context h =>
    ⟨advance_continues hb limit h context, fun _ hout => idle_of_advance hb.recorded hout⟩

/-! ### Hosts -/

/-- What is seen of a run from outside: the body that it ends with, or its fault, and the
context. -/
def report {α σ C : Type} : Except (Fault × C) (α × σ × C) → Except Fault α × C
  | .ok (body, _, context) => (.ok body, context)
  | .error (fault, context) => (.error fault, context)

/-- The recorded run of a host on a fresh scheduler. -/
def record (behave : Behaviour β C) (limit : Nat) (host : Routine β C) (context : C) :
    Except (Fault × C × Transcript) (β × Scheduler β × C × Transcript) :=
  host.recorded.run (poll (recordedBehaviour behave) limit) {} (context, [])

/-- The recorded run of a host on an empty bag. -/
def Bag.record (behave : Behaviour β C) (limit : Nat) (host : Routine β C) (context : C) :
    Except (Fault × C × Transcript) (β × Bag β × C × Transcript) :=
  host.recorded.replay (Bag.poll (recordedBehaviour behave) limit) {} (context, [])

/-- The transcript of a recorded run. -/
def transcript {α σ : Type} (x : Except (Fault × C × Transcript) (α × σ × C × Transcript)) :
    Transcript := (report x).2.2

theorem report_eq_of_matches {x : Except (Fault × C) (β × Scheduler β × C)}
    {y : Except (Fault × C) (β × Bag β × C)} (h : Matches (Conclude none) x y) :
    report x = report y := by
  cases h with
  | ok h =>
    obtain ⟨hbody, -, hcontext⟩ := h
    simp only [report, hbody, hcontext]
  | error stop => rfl

theorem report_unrecorded
    (x : Except (Fault × C × Transcript) (β × Scheduler β × C × Transcript)) :
    report (unrecorded (Prod.map id dropLog) x) = Prod.map id Prod.fst (report x) := by
  cases x <;> rfl

theorem Settled.isBreach {α σ : Type} {x : Except (Fault × C) (α × σ × C)} (h : Settled x)
    {fault : Fault} (hfault : (report x).1 = .error fault) : fault.IsBreach := by
  cases x with
  | ok out => simp [report] at hfault
  | error stop =>
    rw [← Except.error.inj hfault]
    exact h stop rfl

theorem Continues.suffix {log : Transcript}
    {x : Except (Fault × C × Transcript) (β × Scheduler β × C × Transcript)}
    (h : Continues Prod.snd log x) : log <:+ transcript x := by
  cases h with
  | ok _ more => exact more
  | error _ more => exact more

theorem Continues.punctual {log : Transcript}
    {x : Except (Fault × C × Transcript) (β × Scheduler β × C × Transcript)}
    (h : Continues Prod.snd log x) : Punctual (transcript x) := by
  cases h with
  | ok tells _ => exact tells.punctual
  | error punctual _ => exact punctual

/-- If every advance of the clock is to a target below the end of time, some limit is high
enough for the host. -/
theorem run_settles (hb : NeverPoll behave) (host : Routine β C) {s : Scheduler β}
    {log : Transcript} (h : Tells s log) (hhome : Home [] s) (context : C) :
    ∃ enough, ∀ limit, enough ≤ limit →
      (∀ target, .polling target ∈ transcript
          (host.recorded.run (poll (recordedBehaviour behave) limit) s (context, log)) →
        target.count < Cycles.last.count) →
      Settled (host.recorded.run (poll (recordedBehaviour behave) limit) s (context, log)) := by
  induction host generalizing s log context with
  | finish body =>
    refine ⟨0, fun limit _ _ stop hstop => ?_⟩
    simp [Routine.recorded, Routine.run] at hstop
  | command c next ih =>
    simp only [run_recorded_command]
    cases ha : c.apply s with
    | ok s' => exact ih (h.command ha) (hhome.apply ha) context
    | error fault =>
      refine ⟨0, fun limit _ _ stop hstop => ?_⟩
      rw [← Except.error.inj hstop]
      exact isBreach_of_apply ha
  | register body next ih =>
    simp only [run_recorded_register]
    exact ih _ (h.register body) (hhome.register body) context
  | ask q next ih =>
    simp only [run_recorded_ask]
    cases ha : q.ask s with
    | ok answer =>
      have htold : Tells s (.told q answer :: log) := h.keep h.punctual fun _ => rfl
      exact ih answer htold hhome context
    | error fault =>
      refine ⟨0, fun limit _ _ stop hstop => ?_⟩
      rw [← Except.error.inj hstop]
      exact isBreach_of_ask ha
  | read next ih => exact ih context h hhome context
  | write written next ih => exact ih h hhome written
  | poll cycles next ih =>
    by_cases hlast : (s.epoch + cycles).count < Cycles.last.count
    · have hpolling : Tells s (.polling (s.epoch + cycles) :: log) :=
        h.keep h.punctual fun _ => rfl
      obtain ⟨enough, hsettled⟩ := advance_settles hb.recorded hlast s
        (context, .polling (s.epoch + cycles) :: log) h.orderly hhome
      -- every limit from `enough` on gives the same advance
      have hsame : ∀ limit, enough ≤ limit →
          poll (recordedBehaviour behave) limit cycles s
              (context, .polling (s.epoch + cycles) :: log)
            = advance (recordedBehaviour behave) enough (s.epoch + cycles) s
              (context, .polling (s.epoch + cycles) :: log) := by
        intro limit hle
        obtain ⟨extra, rfl⟩ := Nat.exists_eq_add_of_le hle
        exact advance_limit hb.recorded _ enough extra s _ hsettled.not_overruns
      have hcontinues : Continues id _ (advance (recordedBehaviour behave) enough
          (s.epoch + cycles) s (context, .polling (s.epoch + cycles) :: log)) :=
        advance_continues hb enough hpolling context
      cases hx : advance (recordedBehaviour behave) enough (s.epoch + cycles) s
          (context, .polling (s.epoch + cycles) :: log) with
      | error stop =>
        refine ⟨enough, fun limit hle _ stop' hstop => ?_⟩
        rw [run_recorded_poll, hsame limit hle, hx] at hstop
        rw [← Except.error.inj hstop]
        exact hsettled stop hx
      | ok out =>
        obtain ⟨s₁, hkeeps, hs₁, -⟩ := advance_induct hb.recorded
          (fun s _ => s.Orderly ∧ Home [] s) (fun h _ _ hf => fire_keeps hb.recorded h hf)
          ⟨h.orderly, hhome⟩ hx
        have hhome' : Home [] out.1 := by rw [hs₁]; exact hkeeps.2
        rw [hx] at hcontinues
        cases hcontinues with
        | ok tells more =>
          obtain ⟨enough', hrest⟩ :=
            ih (tells.polled (idle_of_advance hb.recorded hx)) hhome' out.2.1
          refine ⟨max enough enough', fun limit hle => ?_⟩
          rw [run_recorded_poll, hsame limit (by omega), hx]
          exact hrest limit (by omega)
    · -- the target is written down before the advance, so it is in the transcript in any case
      refine ⟨0, fun limit _ htargets => absurd (htargets (s.epoch + cycles) ?_) hlast⟩
      have hpoll := poll_continues hb limit
      have hcontinues : Continues Prod.snd (.polling (s.epoch + cycles) :: log) _ :=
        run_poll_continues hpoll (fun h context => run_continues hpoll next h context) h context
      exact hcontinues.suffix.subset List.mem_cons_self

/-- **The scheduler does what the bag does.**  On a fresh scheduler, with tasks that never
advance the clock themselves, the recorded run of any host has the same transcript as on the
empty bag, the same final body or fault and the same context, and recording changes nothing.
Its transcript is punctual and every occurrence meets its fate, and if the host keeps below
the end of time, only a breach of the contract stops it, from some limit on. -/
theorem record_refines (hb : NeverPoll behave) (host : Routine β C) (context : C) :
    (∀ limit, report (record behave limit host context)
        = report (Bag.record behave limit host context)) ∧
      (∀ limit, report (host.run (poll behave limit) {} context)
        = Prod.map id Prod.fst (report (record behave limit host context))) ∧
      (∀ limit, Punctual (transcript (record behave limit host context)) ∧
        ∀ after before task due, transcript (record behave limit host context) = after ++ before →
          due? before task = some due → Fate task due after) ∧
      ∃ enough, ∀ limit, enough ≤ limit →
        (∀ target, .polling target ∈ transcript (record behave limit host context) →
          target.count < Cycles.last.count) →
        ∀ fault, (report (record behave limit host context)).1 = .error fault → fault.IsBreach := by
  refine ⟨fun limit => ?_, fun limit => ?_, fun limit => ?_, ?_⟩
  · have hrun := Refines.new.run (fun cycles context h => h.poll hb.recorded limit cycles context)
      host.recorded (context, [])
    exact report_eq_of_matches hrun
  · unfold record
    rw [← report_unrecorded, run_recorded (poll_recorded behave limit) host {} context []]
  · have hp := (run_continues (poll_continues hb limit) host .new context).punctual
    refine ⟨hp, fun after before task due heq hdue => ?_⟩
    rw [record] at heq
    rw [heq] at hp
    exact fate_of_punctual hp hdue
  · obtain ⟨enough, h⟩ := run_settles hb host .new home_new context
    exact ⟨enough, fun limit hle htargets fault hfault => (h limit hle htargets).isBreach hfault⟩

/-- A task that arms itself again as long as its body is positive, and one that then stops
task 0. -/
def relay : Behaviour Nat Unit
  | n + 1, task => .command (.arm task 3) (.finish n)
  | 0, _ => .command (.cancel ⟨0⟩) (.finish 0)

/-- Task 1 is armed first and for the cycle on which task 0 fires for the third time. -/
def relayHost : Routine Nat Unit :=
  .register 5 fun first => .register 0 fun second => .command (.arm second 7)
    (.command (.arm first 1) (.poll 10 (.ask (.isArmed first) fun _ => .finish 0)))

theorem record_refines_relay :
    NeverPoll relay ∧
      transcript (record relay 9 relayHost ())
        = [.told (.isArmed ⟨0⟩) false, .polled 10,
          .commanded (.cancel ⟨0⟩) 7, .fired ⟨1⟩ 7,
          .commanded (.arm ⟨0⟩ 3) 4, .fired ⟨0⟩ 4, .commanded (.arm ⟨0⟩ 3) 1, .fired ⟨0⟩ 1,
          .polling 10, .commanded (.arm ⟨0⟩ 1) 0, .commanded (.arm ⟨1⟩ 7) 0,
          .registered ⟨1⟩, .registered ⟨0⟩] ∧
      report (record relay 9 relayHost ()) = report (Bag.record relay 9 relayHost ()) := by
  have hrelay : NeverPoll relay := by
    intro n task
    cases n with
    | zero => exact .command _ (.finish 0)
    | succ n => exact .command _ (.finish n)
  exact ⟨hrelay, rfl, (record_refines hrelay relayHost ()).1 9⟩

end Cassette.Scheduler
