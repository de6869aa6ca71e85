import Cassette.Proofs.Acia.Cadence

/-!
# The polls of a tape that fall due

What a tape plays while time passes is decided by the tape, by the cycle on which its next poll is
due and by the control register: each poll says when the next one is due, and after a poll that
fails there is none.  The chip makes the polls that fall due, in their order and on their cycles,
and no others; and it has a reason to report exactly if one of them fails.

## Main definitions

* `Reel` — a tape that plays, and when its next poll is due.
* `Falls` — the polls that fall due up to some cycle.
* `Chip.deckMoments`, `TapePoll.moments` — what polls leave on the trace.
* `Rolls` — from one state of the chip to another polls that fell due have been made.

## Main results

* `Falls.unique`, `Falls.stopped_iff` — the polls are determined, and one that fails is the last.
* `rolls_pollTape` — a turn of the deck makes the polls of a run.
* `falls_advance` — **the passing of time makes the polls that fall due**.
-/

namespace Cassette.Acia

variable {ρ : Type}

/-! ### Polls that fall due -/

/-- A tape that plays. -/
structure Reel where
  /-- The cycle on which its next poll is due. -/
  due : Cycles
  tape : Tape

/-- One poll of a tape, and the unit of work that it plays. -/
structure TapePoll where
  cycle : Cycles
  unit : Tape.Played Tape

namespace TapePoll

/-- What is left to play after a poll, unless it has failed. -/
def next? (p : TapePoll) : Option Reel :=
  p.unit.delay.toOption.map fun delay => ⟨p.cycle + delay, p.unit.tape⟩

/-- A poll that fails. -/
def Fails (p : TapePoll) (e : Tape.Error) : Prop := p.unit.delay = .error e

theorem next?_eq_none_iff {p : TapePoll} : p.next? = none ↔ ∃ e, p.Fails e := by
  unfold next? Fails
  cases p.unit.delay <;> simp [Except.toOption]

end TapePoll

/-- The next poll of a tape that plays. -/
def Reel.poll (control : UInt8) (r : Reel) : TapePoll := ⟨r.due, r.tape.poll control⟩

/-- From what plays at first, the polls that fall due up to `target`, and what plays then. -/
inductive Falls (control : UInt8) (target : Cycles) :
    Option Reel → List TapePoll → Option Reel → Prop where
  | idle : Falls control target none [] none
  | later {r : Reel} (h : target < r.due) : Falls control target (some r) [] (some r)
  | poll {r : Reel} {polls : List TapePoll} {last? : Option Reel} (h : ¬ target < r.due)
      (hrest : Falls control target (r.poll control).next? polls last?) :
      Falls control target (some r) (r.poll control :: polls) last?

namespace Falls

variable {control : UInt8} {target : Cycles} {first? last? : Option Reel} {polls : List TapePoll}

/-- The polls that fall due are determined, and so is what plays then. -/
theorem unique (h : Falls control target first? polls last?) {polls' : List TapePoll}
    {last?' : Option Reel} (h' : Falls control target first? polls' last?') :
    polls' = polls ∧ last?' = last? := by
  induction h generalizing polls' with
  | idle =>
    cases h'
    exact ⟨rfl, rfl⟩
  | later hlater =>
    cases h' with
    | later => exact ⟨rfl, rfl⟩
    | poll hdue => exact absurd hlater hdue
  | poll hdue _ ih =>
    cases h' with
    | later hlater => exact absurd hlater hdue
    | poll _ hrest =>
      obtain ⟨rfl, rfl⟩ := ih hrest
      exact ⟨rfl, rfl⟩

theorem of_none (h : Falls control target none polls last?) : polls = [] ∧ last? = none := by
  cases h
  exact ⟨rfl, rfl⟩

/-- A tape that plays stops playing exactly if one of its polls fails. -/
theorem stopped_iff {r : Reel} (h : Falls control target (some r) polls last?) :
    last? = none ↔ ∃ p ∈ polls, ∃ e, p.Fails e := by
  induction polls generalizing r with
  | nil =>
    cases h
    simp
  | cons p polls ih =>
    cases h with
    | poll _ hrest =>
      cases hnext : (r.poll control).next? with
      | none =>
        -- after a poll that fails there are no others
        rw [hnext] at hrest
        obtain ⟨rfl, rfl⟩ := hrest.of_none
        exact iff_of_true rfl ⟨_, List.mem_cons_self, TapePoll.next?_eq_none_iff.mp hnext⟩
      | some r' =>
        rw [hnext] at hrest
        have hplays : ¬ ∃ e, (r.poll control).Fails e := fun hfails => by
          rw [TapePoll.next?_eq_none_iff.mpr hfails] at hnext
          simp at hnext
        rw [ih hrest]
        simp only [List.mem_cons, exists_eq_or_imp]
        exact (or_iff_right hplays).symm

end Falls

/-- A run of the tape is the polls that fall due on one cycle. -/
theorem falls_run {control : UInt8} {target now : Cycles} (hdue : ¬ target < now) (tape : Tape)
    {more : List TapePoll} {last? : Option Reel}
    (hmore : Falls control target
      ((tape.run control).getLast?.bind fun unit => (TapePoll.mk now unit).next?) more last?) :
    Falls control target (some ⟨now, tape⟩)
      ((tape.run control).map (TapePoll.mk now) ++ more) last? := by
  induction tape using Tape.run_induct control with
  | last t hdelay => exact .poll hdue hmore
  | more t hdelay ih =>
    obtain ⟨last, hlast, -⟩ := (t.poll control).tape.getLast?_run control
    rw [List.getLast?_cons, hlast] at hmore
    rw [hlast] at ih
    refine .poll hdue ?_
    have hnext : (Reel.poll control ⟨now, t⟩).next? = some ⟨now, (t.poll control).tape⟩ := by
      unfold TapePoll.next? Reel.poll
      rw [hdelay]
      exact congrArg (fun cycle => some (Reel.mk cycle _)) (Cycles.add_zero now)
    rw [hnext]
    exact ih hmore

/-! ### What polls leave on the trace -/

/-- What the tapes in the deck have left on the trace so far, in order. -/
def Chip.deckMoments (c : Chip ρ) : List Moment := c.trace.filter (·.event.ofDeck)

/-- The end of a poll: the time until the next one, or why its tape is ejected. -/
def TapePoll.ending (p : TapePoll) : Event :=
  match p.unit.delay with
  | .ok delay => .pause delay
  | .error e => .note (.ejecting p.unit.tape.format e)

/-- What a poll leaves on the trace: its signals, and its end. -/
def TapePoll.moments (p : TapePoll) : List Moment :=
  p.unit.signals.map (fun s => ⟨p.cycle, .signal s⟩) ++ [⟨p.cycle, p.ending⟩]

section

variable (now : Cycles) (c : Chip ρ)

theorem deckMoments_record (e : Event) :
    (c.record now e).deckMoments = c.deckMoments ++ if e.ofDeck then [⟨now, e⟩] else [] :=
  filter_trace_record Event.ofDeck now c e

theorem deckMoments_record_of_not {e : Event} (h : e.ofDeck = false) :
    (c.record now e).deckMoments = c.deckMoments := by
  rw [deckMoments_record, h]
  exact List.append_nil _

theorem deckMoments_take (s : Tape.Signal) :
    (c.take now s).deckMoments = c.deckMoments ++ [⟨now, .signal s⟩] := by
  have hrecord : (c.record now (.signal s)).deckMoments = c.deckMoments ++ [⟨now, .signal s⟩] :=
    deckMoments_record now c (.signal s)
  rw [← hrecord]
  cases s with
  | byte b => rfl
  | carrier level =>
    change (Chip.cassetteCarrier _ level).deckMoments = _
    unfold Chip.cassetteCarrier
    split <;> rfl
  | tone hertz =>
    change (Chip.playTone now _ hertz).deckMoments = _
    unfold Chip.playTone
    split
    · rfl
    · split
      · exact deckMoments_record_of_not now _ rfl
      · exact deckMoments_record_of_not now _ rfl
  | note notice => rfl

theorem deckMoments_play (unit : Tape.Played Tape) :
    (c.play now unit).deckMoments = c.deckMoments ++ (TapePoll.mk now unit).moments := by
  have hsignals (signals : List Tape.Signal) : (signals.foldl (Chip.take now) c).deckMoments
      = c.deckMoments ++ signals.map fun s => ⟨now, .signal s⟩ := by
    induction signals generalizing c with
    | nil => exact (List.append_nil _).symm
    | cons s signals ih =>
      rw [List.foldl_cons, ih, deckMoments_take, List.append_assoc]
      rfl
  have hends (c' : Chip ρ) {e : Event} (he : e.ofDeck = true)
      (hc' : c'.deckMoments = c.deckMoments ++ unit.signals.map fun s => ⟨now, .signal s⟩) :
      (c'.record now e).deckMoments
        = c.deckMoments ++ (unit.signals.map (fun s => ⟨now, .signal s⟩) ++ [⟨now, e⟩]) := by
    rw [deckMoments_record, he, hc', if_pos rfl, List.append_assoc]
  unfold TapePoll.moments TapePoll.ending Chip.play
  cases unit.delay with
  | ok delay => exact hends _ (e := .pause delay) rfl (hsignals unit.signals)
  | error e =>
    exact hends _ (e := .note (.ejecting unit.tape.format e)) rfl (hsignals unit.signals)

theorem deckMoments_foldl_play (units : List (Tape.Played Tape)) :
    (units.foldl (Chip.play now) c).deckMoments
      = c.deckMoments ++ (units.map (TapePoll.mk now)).flatMap TapePoll.moments := by
  induction units generalizing c with
  | nil => exact (List.append_nil _).symm
  | cons unit units ih =>
    rw [List.foldl_cons, ih, deckMoments_play, List.append_assoc]
    rfl

theorem deckMoments_pollPeer [SerialPeer ρ] : (c.pollPeer now).deckMoments = c.deckMoments := by
  unfold Chip.pollPeer
  split
  · rfl
  · next peer _ =>
    dsimp only
    cases (SerialPeer.offer peer (Control.requestToSend c.control)).1 with
    | none => exact deckMoments_record_of_not now _ rfl
    | some b => exact deckMoments_record_of_not now _ rfl

end

/-! ### From one state to another -/

/-- What plays on a chip with its timers. -/
def Reel.of? (s : Scheduler Timer) (c : Chip ρ) : Option Reel :=
  (Timer.tape.due? s).bind fun due => c.deck.map (Reel.mk due)

/-- From one state of the timers and the chip to another some polls have been made that fell due:
those that fall due then are the rest of those that fell due at first. -/
structure Rolls (control : UInt8) (target : Cycles) (polls : List TapePoll)
    (s : Scheduler Timer) (c : Chip ρ) (s' : Scheduler Timer) (c' : Chip ρ) : Prop where
  falls : ∀ {more : List TapePoll} {last? : Option Reel},
    Falls control target (Reel.of? s' c') more last? →
    Falls control target (Reel.of? s c) (polls ++ more) last?
  moments : c'.deckMoments = c.deckMoments ++ polls.flatMap TapePoll.moments
  /-- There is a reason to report if there was one, or if one of the polls has failed. -/
  error : ∀ e, c'.deckError = some e ↔ c.deckError = some e ∨ ∃ p ∈ polls, p.Fails e

namespace Rolls

variable {control : UInt8} {target : Cycles} {s s' s'' : Scheduler Timer} {c c' c'' : Chip ρ}

/-- What is nothing to the deck and to its timer. -/
theorem of_same (hreel : Reel.of? s' c' = Reel.of? s c) (hmoments : c'.deckMoments = c.deckMoments)
    (herror : c'.deckError = c.deckError) : Rolls control target [] s c s' c' where
  falls h := by rwa [hreel] at h
  moments := by rw [hmoments, List.flatMap_nil, List.append_nil]
  error e := by simp [herror]

theorem trans {polls more : List TapePoll} (h : Rolls control target polls s c s' c')
    (h' : Rolls control target more s' c' s'' c'') :
    Rolls control target (polls ++ more) s c s'' c'' where
  falls hfalls := by
    rw [List.append_assoc]
    exact h.falls (h'.falls hfalls)
  moments := by rw [h'.moments, h.moments, List.flatMap_append, List.append_assoc]
  error e := by
    rw [h'.error, h.error]
    simp only [List.mem_append, or_and_right, exists_or, or_assoc]

end Rolls

/-- After a run there is a reason to report if one of its units has failed. -/
theorem deckError_foldl_run (now : Cycles) {control : UInt8} {tape : Tape} {c : Chip ρ}
    (h : c.deckError = none) (e : Tape.Error) :
    ((tape.run control).foldl (Chip.play now) c).deckError = some e ↔
      ∃ unit ∈ tape.run control, unit.delay = .error e := by
  induction tape using Tape.run_induct control generalizing c with
  | last t hdelay =>
    rw [List.foldl_cons, List.foldl_nil]
    cases hd : (t.poll control).delay with
    | ok delay => simp [deckError_play hd, h, hd]
    | error e' =>
      unfold Chip.play
      simp [hd, Chip.record]
  | more t hdelay ih =>
    rw [List.foldl_cons, ih ((deckError_play hdelay).trans h)]
    simp [hdelay]

section

variable {control : UInt8} {target : Cycles} {s s' : Scheduler Timer} {c : Chip ρ}

/-- A turn of the deck makes the polls of a run, after which its timer is due when the last of them
has said. -/
theorem rolls_pollTape {now : Cycles} {tape : Tape} (hlate : ¬ target < now)
    (hmotor : c.motorOn = true) (hdeck : c.deck = some tape) (herror : c.deckError = none)
    (hdue : Timer.tape.due? s = some now)
    (hnext : Timer.tape.due? s' = (c.pollTape now).1.map (now + ·)) :
    Rolls c.control target ((tape.run c.control).map (TapePoll.mk now)) s c s' (c.pollTape now).2
    where
  falls {more last?} h := by
    have hreel : Reel.of? s c = some ⟨now, tape⟩ := by
      unfold Reel.of?
      rw [hdue, hdeck]
      rfl
    have hreel' : Reel.of? s' (c.pollTape now).2
        = (tape.run c.control).getLast?.bind fun unit => (TapePoll.mk now unit).next? := by
      unfold Reel.of?
      rw [hnext, deck_pollTape now hmotor hdeck]
      unfold Chip.pollTape Tape.afterRun
      rw [hmotor, hdeck]
      dsimp only
      cases (tape.run c.control).getLast? with
      | none => rfl
      | some unit =>
        unfold TapePoll.next? Tape.Played.next?
        dsimp only [Option.bind_some]
        cases unit.delay <;> rfl
    rw [hreel'] at h
    rw [hreel]
    exact falls_run hlate tape h
  moments := by
    rw [pollTape_of_running now hmotor hdeck, deckMoments_foldl_play]
  error e := by
    rw [pollTape_of_running now hmotor hdeck, deckError_foldl_run now herror, herror]
    constructor
    · rintro ⟨unit, hunit, hfails⟩
      exact Or.inr ⟨⟨now, unit⟩, List.mem_map_of_mem hunit, hfails⟩
    · rintro (hnone | ⟨p, hp, hfails⟩)
      · simp at hnone
      · obtain ⟨unit, hunit, rfl⟩ := List.mem_map.mp hp
        exact ⟨unit, hunit, hfails⟩

variable [SerialPeer ρ]

/-- Every act of a timer makes the polls that fall due with it. -/
theorem rolls_act {e : Entry} {rest : List Entry} {timer : Timer} (htimed : Timed s c)
    (hwired : Wired s c.standing c.deck.isSome) (hs : s.agenda = e :: rest)
    (htask : e.task = timer.id) (hlate : ¬ target < e.due) :
    ∃ polls, Rolls c.control target polls s c
      ((Timer.renew (s.takeOut e) e.task (timer.act e.due c).1).putBack e.task timer)
      (timer.act e.due c).2 := by
  have hfire := Timer.due?_fire htimed.orderly hs htask (timer.act e.due c).1 .tape
  cases timer with
  | transmit =>
    refine ⟨[], .of_same ?_ rfl rfl⟩
    unfold Reel.of?
    rw [hfire]
    rfl
  | rs423 =>
    refine ⟨[], .of_same ?_ ?_ ?_⟩
    · unfold Reel.of?
      rw [hfire, if_neg (by decide), Timer.act_rs423]
      split
      · exact congrArg _ (funext fun due => congrArg _ (sameDeck_pollPeer e.due c).deck)
      · rfl
    · rw [Timer.act_rs423]
      split
      · exact deckMoments_pollPeer e.due c
      · rfl
    · rw [Timer.act_rs423]
      split
      · exact (sameDeck_pollPeer e.due c).deckError
      · rfl
  | tape =>
    -- the timer is pending, so there is a tape to play, and nothing to report yet
    have hpending := Timer.due?_of_head hs htask
    have hplays := hwired.tape
    rw [hpending] at hplays
    obtain ⟨hmotor, hloaded⟩ : c.motorOn = true ∧ c.deck.isSome = true := by
      simpa [Chip.standing] using hplays
    obtain ⟨tape, hdeck⟩ := Option.isSome_iff_exists.mp hloaded
    have herror : c.deckError = none := by
      refine Option.eq_none_iff_forall_ne_some.mpr fun e he => ?_
      rw [htimed.lost (by rw [he]; simp)] at hdeck
      simp at hdeck
    rw [Timer.act_tape] at hfire ⊢
    exact ⟨_, rolls_pollTape hlate hmotor hdeck herror hpending hfire⟩

/-- The passing of time makes the polls that fall due, and no others. -/
theorem falls_advance {c' : Chip ρ} (htimed : Timed s c)
    (hwired : Wired s c.standing c.deck.isSome) {limit : Nat}
    (hadv : Scheduler.advance Timer.routine limit target s c = .ok (s', c')) :
    ∃ polls, Falls c.control target (Reel.of? s c) polls (Reel.of? s' c') ∧
      c'.deckMoments = c.deckMoments ++ polls.flatMap TapePoll.moments ∧
      ∀ e, c'.deckError = some e ↔ c.deckError = some e ∨ ∃ p ∈ polls, p.Fails e := by
  obtain ⟨s₁, ⟨-, -, polls, hrolls⟩, rfl⟩ := htimed.induct
    (fun s₁ c₁ => Wired s₁ c₁.standing c₁.deck.isSome ∧ c₁.control = c.control ∧
      ∃ polls, Rolls c.control target polls s c s₁ c₁)
    (fun {s₁ c₁ e _ timer} htimed h hs htask hlate => by
      obtain ⟨hwired, hcontrol, polls, hrolls⟩ := h
      obtain ⟨more, hmore⟩ := rolls_act htimed hwired hs htask hlate
      rw [hcontrol] at hmore
      refine ⟨hwired.act htimed.orderly hs htask, ?_, _, hrolls.trans hmore⟩
      exact (congrArg (·.control) (standing_act timer e.due c₁)).trans hcontrol)
    ⟨hwired, rfl, [], .of_same rfl rfl rfl⟩ hadv
  refine ⟨polls, ?_, hrolls.moments, hrolls.error⟩
  -- nothing else falls due
  have hlater := (htimed.of_advance hadv).2.2
  have hrest : Falls c.control target (Reel.of? s₁ c') [] (Reel.of? s₁ c') := by
    cases hreel : Reel.of? s₁ c' with
    | none => exact .idle
    | some r =>
      obtain ⟨due, hdue, hr⟩ := Option.bind_eq_some_iff.mp hreel
      obtain ⟨tape, -, rfl⟩ := Option.map_eq_some_iff.mp hr
      obtain ⟨e, he, rfl⟩ := Timer.exists_entry hdue
      exact .later (hlater e he)
  have hfalls := hrolls.falls hrest
  rw [List.append_nil] at hfalls
  exact hfalls

end

end Cassette.Acia
