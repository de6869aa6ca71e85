import Cassette.Proofs.Acia.Contact
import Cassette.Proofs.Board.History
import Cassette.Proofs.Board.Regular

/-!
# The rota of the line

A device on the RS423 line is visited while RS423 is selected, and only then: for the first time
when the time of a character has passed since the selection, and from each visit to the next as
long after it as a character took then.  Nothing that happens to the board moves a visit that is
due, except that the cassette is selected, and neither the deck nor the way in which time is cut
has a part in any of it.

## Main definitions

* `Contact.after` — what an operation is to the contact of the chip and the device.
* `Board.visits` and `Board.sent` — the visits of an operation, and what it sends on the line.
* `Board.Attended` — a stretch of operations with RS423 selected, and the visits in it.

## Main results

* `perform_contact` — every operation is that to the contact.
* `Attended.rota` — the visits of a stretch.
* `Reachable.attends` — **the device is visited once in the time of a character, and only while
  RS423 is selected**.
-/

namespace Cassette

namespace Acia

variable {ρ : Type}

namespace Contact

/-- The contact after a register of the serial ULA has been applied. -/
def routed (k : Contact ρ) (now : Cycles) (u : SerialUla) : Contact ρ :=
  (k.rated u.receiveRate).select now u.selectsRs423

theorem due?_rated (k : Contact ρ) (rate : UInt32) : (k.rated rate).due? = k.due? := by
  unfold rated
  split <;> rfl

theorem passed_rated (k : Contact ρ) (rate : UInt32) : (k.rated rate).passed = k.passed := by
  unfold rated
  split <;> rfl

variable [SerialPeer ρ]

/-- What an operation on cycle `now` is to the contact. -/
def after (k : Contact ρ) (now : Cycles) : Board.Operation ρ → Contact ρ
  | .write address value =>
    if isData address then k.send now value
    else if Control.isReset value then k else { k with control := value }
  | .selectRs423 selected => k.select now selected
  | .setReceiveRate rate => k.rated rate
  | .poll cycles => k.follow (now + cycles)
  | .ulaWrite value => k.routed now ⟨value⟩
  | .ulaRead => k.routed now ⟨SerialUla.busValue⟩
  | .attachPeer peer => { k with peer }
  | _ => k

variable {k : Contact ρ} {now : Cycles} {op : Board.Operation ρ}

/-- The line that is selected anew is due when the time of a character has passed. -/
theorem due?_after_of_idle (hidle : k.due? = none) (hop : op.selection false = true) :
    (k.after now op).due? = some (now + (k.after now op).byteTime) := by
  have hselect (k : Contact ρ) (hidle : k.due? = none) :
      (k.select now true).due? = some (now + (k.select now true).byteTime) := by
    unfold select
    rw [hidle]
    rfl
  have hrouted (u : SerialUla) (hu : u.selectsRs423 = true) :
      (k.routed now u).due? = some (now + (k.routed now u).byteTime) := by
    unfold routed
    rw [hu]
    exact hselect _ ((k.due?_rated _).trans hidle)
  cases op with
  | selectRs423 selected =>
    obtain rfl : selected = true := hop
    exact hselect k hidle
  | ulaWrite value => exact hrouted _ hop
  | ulaRead => exact hrouted _ hop
  | _ => exact absurd hop Bool.false_ne_true

/-- A line that stays selected is due when it was, until time passes. -/
theorem due?_after_of_pending (hpending : k.due?.isSome = true) (hop : op.selection true = true)
    (hcycles : ∀ cycles, op ≠ .poll cycles) : (k.after now op).due? = k.due? := by
  have hselect (k : Contact ρ) (hpending : k.due?.isSome = true) :
      (k.select now true).due? = k.due? := by
    obtain ⟨due, hdue⟩ := Option.isSome_iff_exists.mp hpending
    unfold select
    rw [hdue]
    rfl
  have hrouted (u : SerialUla) (hu : u.selectsRs423 = true) : (k.routed now u).due? = k.due? := by
    unfold routed
    rw [hu, hselect _ (by rwa [due?_rated]), due?_rated]
  cases op with
  | write address value =>
    simp only [after]
    split
    · rfl
    · split <;> rfl
  | selectRs423 selected =>
    obtain rfl : selected = true := hop
    exact hselect k hpending
  | setReceiveRate rate => exact k.due?_rated rate
  | poll cycles => exact absurd rfl (hcycles cycles)
  | ulaWrite value => exact hrouted _ hop
  | ulaRead => exact hrouted _ hop
  | _ => rfl

end Contact

end Acia

namespace Board

open Acia (Contact Visit Rota Asks Moment Reception)

variable {ρ : Type}

theorem contact_routed (a : Acia ρ) (u : SerialUla) :
    (a.routed u).contact = a.contact.routed a.now u := by
  unfold Acia.routed Contact.routed
  rw [Acia.contact_selected, Acia.contact_switched, Acia.contact_rated, Acia.now_switched,
    Acia.now_rated]

variable [Acia.SerialPeer ρ]

/-- The visits to a device on the line that come with an operation. -/
def visits (b : Board ρ) : Operation ρ → List Visit
  | .poll cycles => b.acia.contact.visits (b.acia.now + cycles)
  | _ => []

theorem visits_eq_nil (b : Board ρ) {op : Operation ρ} (hop : ∀ cycles, op ≠ .poll cycles) :
    b.visits op = [] := by
  cases op with
  | poll cycles => exact absurd rfl (hop cycles)
  | _ => rfl

/-- What an operation sends to a device on the line. -/
def sent (b : Board ρ) : Operation ρ → List Moment
  | .write address value =>
    if Acia.isData address then b.acia.contact.sent b.acia.now value else []
  | _ => []

section

variable {b b' : Board ρ} {op : Operation ρ} {reply : Reply}

/-- The contact after a poll that ends before the end of time. -/
theorem contact_poll {a a' : Acia ρ} (h : a.Sound) (hwired : a.IsWired) {cycles : Cycles}
    {e : Option Tape.Error} (hpoll : a.poll cycles = .ok (e, a'))
    (hlast : a'.now.count < Cycles.last.count) :
    a'.contact = a.contact.follow (a.now + cycles) := by
  obtain ⟨timers, chip, hadv, -, ha⟩ := Acia.Sound.poll_ok hpoll
  have hnow : a'.now = a.now + cycles := by
    rw [ha]
    exact (h.timed.of_advance hadv).2.1
  rw [hnow] at hlast
  have hfollow := Acia.contact_advance h.timed hwired.rs423 hlast hadv
  rw [ha]
  exact hfollow

/-- Before the end of time every operation is that to the contact. -/
theorem perform_contact (hb : b.Reachable) (h : b.perform op = .ok (reply, b'))
    (hlast : b'.acia.now.count < Cycles.last.count) :
    b'.acia.contact = b.acia.contact.after b.acia.now op := by
  rcases perform_cases h with ⟨cycles, e, rfl, hpoll, -⟩ | hop
  · exact contact_poll hb.sound hb.wired hpoll hlast
  · rw [perform_outcome hb.sound hb.transmitDelay_ne_zero h hop]
    cases op with
    | poll cycles => exact absurd rfl (hop cycles)
    | read address => exact Acia.contact_read _ address
    | write address value => exact Acia.contact_written _ address value
    | selectRs423 selected => exact Acia.contact_selected _ selected
    | switchMotor on => exact Acia.contact_switched _ on
    | setReceiveRate rate => exact Acia.contact_rated _ rate
    | insert data clock => exact Acia.contact_opened _ _
    | eject => exact Acia.contact_unloaded _
    | reinsert =>
      exact outcome_reinsert (P := (·.contact = b.acia.contact)) rfl (Acia.contact_loaded _)
    | rewind => exact Acia.contact_rewind _
    | ulaWrite value => exact contact_routed _ _
    | ulaRead => exact contact_routed _ _
    | reset | setCarrier | receive | ulaReset | attachPeer | attachTone | attachNoise => rfl

/-- A visit is due exactly while RS423 is selected. -/
theorem Reachable.isSome_due? (hb : b.Reachable) :
    b.acia.contact.due?.isSome = b.acia.chip.rs423Selected := hb.wired.rs423

theorem Reachable.due?_of_cassette (hb : b.Reachable)
    (hcassette : b.acia.chip.rs423Selected = false) : b.acia.contact.due? = none :=
  Option.isNone_iff_eq_none.mp (Option.isSome_eq_false_iff.mp (hb.isSome_due?.trans hcassette))

/-- What an operation adds to what has passed on the line. -/
theorem perform_passed (hb : b.Reachable) (h : b.perform op = .ok (reply, b'))
    (hlast : b'.acia.now.count < Cycles.last.count) :
    b'.acia.chip.passed
      = b.acia.chip.passed ++ ((b.visits op).filterMap Visit.moment? ++ b.sent op) := by
  have hpassed : b'.acia.chip.passed = (b.acia.contact.after b.acia.now op).passed :=
    congrArg Contact.passed (perform_contact hb h hlast)
  have hnone : (b.acia.contact.after b.acia.now op).passed = b.acia.chip.passed →
      (b.acia.contact.after b.acia.now op).passed = b.acia.chip.passed ++ ([] ++ []) := by
    intro heq
    rw [heq, List.append_nil, List.append_nil]
  have hrouted (u : SerialUla) : (b.acia.contact.routed b.acia.now u).passed
      = b.acia.chip.passed ++ ([] ++ []) := by
    rw [List.append_nil, List.append_nil]
    exact Contact.passed_rated _ _
  rw [hpassed]
  cases op with
  | write address value =>
    simp only [Contact.after, visits, sent, List.filterMap_nil, List.nil_append]
    split
    · rfl
    · split <;> exact (List.append_nil _).symm
  | poll cycles =>
    simp only [visits, sent, List.append_nil]
    rfl
  | setReceiveRate rate => exact hnone (Contact.passed_rated _ _)
  | ulaWrite value => exact hrouted _
  | ulaRead => exact hrouted _
  | _ => exact hnone rfl

/-- What an operation adds to the trace of a device that is asked. -/
theorem perform_asks (hb : b.Reachable) (h : b.perform op = .ok (reply, b'))
    (hlast : b'.acia.now.count < Cycles.last.count) :
    b'.acia.chip.asks = b.acia.chip.asks ++ (b.visits op).filterMap Visit.moment? := by
  have hvisits : ((b.visits op).filterMap Visit.moment?).filter (·.event.isAsked)
      = (b.visits op).filterMap Visit.moment? := by
    refine List.filter_eq_self.mpr fun m hm => ?_
    obtain ⟨v, hv, hmoment⟩ := List.mem_filterMap.mp hm
    cases op with
    | poll cycles => exact Contact.isAsked_moment? hv m hmoment
    | _ => exact absurd hv List.not_mem_nil
  have hsent : (b.sent op).filter (·.event.isAsked) = [] := by
    refine List.filter_eq_nil_iff.mpr fun m hm => ?_
    cases op with
    | write address value =>
      simp only [sent, Contact.sent] at hm
      split at hm
      · split at hm
        · obtain ⟨peer, -, rfl⟩ := Option.map_eq_some_iff.mp (Option.mem_toList.mp hm)
          exact Bool.false_ne_true
        · exact absurd hm List.not_mem_nil
      · exact absurd hm List.not_mem_nil
    | _ => exact absurd hm List.not_mem_nil
  unfold Acia.Chip.asks
  rw [perform_passed hb h hlast, List.filter_append, List.filter_append, hvisits, hsent,
    List.append_nil]

end

/-! ### Stretches -/

/-- From `b` operations lead on, in the course of which RS423 stays selected, with some visits. -/
inductive Attended (b : Board ρ) : List Visit → Board ρ → Prop where
  | refl : Attended b [] b
  | perform {visits : List Visit} {b' b'' : Board ρ} (h : Attended b visits b')
      {op : Operation ρ} {reply : Reply} (hop : op.selection true = true)
      (hperform : b'.perform op = .ok (reply, b'')) : Attended b (visits ++ b'.visits op) b''
  | shelve {visits : List Visit} {b' : Board ρ} (h : Attended b visits b')
      (shelf : Option Tape) : Attended b visits { b' with shelf }

namespace Attended

variable {b b' : Board ρ} {visits : List Visit}

theorem course (h : Attended b visits b') :
    Course (fun _ op => op.selection true = true) b b' := by
  induction h with
  | refl => exact .refl
  | perform _ hop hperform ih => exact ih.perform hop hperform
  | shelve _ shelf ih => exact ih.shelve shelf

theorem reachable (h : Attended b visits b') (hb : b.Reachable) : b'.Reachable :=
  h.course.reachable hb

/-- On the visits the device has been asked. -/
theorem asks (h : Attended b visits b') (hb : b.Reachable)
    (hlast : b'.acia.now.count < Cycles.last.count) :
    b'.acia.chip.asks = b.acia.chip.asks ++ visits.filterMap Visit.moment? := by
  induction h with
  | refl => exact (List.append_nil _).symm
  | perform h _ hperform ih =>
    have hb' := h.reachable hb
    have hnow := perform_now_le hb'.sound hperform
    rw [perform_asks hb' hperform hlast, ih (Nat.lt_of_le_of_lt hnow hlast),
      List.filterMap_append, List.append_assoc]
  | shelve _ _ ih => exact ih hlast

/-- The visits of a stretch: each is due as long after the one before as a character took then. -/
theorem rota (h : Attended b visits b') (hb : b.Reachable) {due : Nat}
    (hdue : b.acia.contact.due? = some (.ofNat due)) (hlater : b.acia.now.count < due)
    (hlast : b'.acia.now.count < Cycles.last.count) :
    ∃ next, Rota due visits next ∧ b'.acia.contact.due? = some (.ofNat next) ∧
      b'.acia.now.count < next := by
  induction h with
  | refl => exact ⟨due, rfl, hdue, hlater⟩
  | @perform visits b₁ b₂ h op reply hop hperform ih =>
    have hb₁ := h.reachable hb
    have hnow := perform_now_le hb₁.sound hperform
    obtain ⟨next, hrota, hnext, hlater₁⟩ := ih (Nat.lt_of_le_of_lt hnow hlast)
    have hcontact := perform_contact hb₁ hperform hlast
    rcases perform_cases hperform with ⟨cycles, e, rfl, -, -⟩ | hcycles
    · -- time passes, with its own visits
      have hclock : b₂.acia.now = b₁.acia.now + cycles := perform_now hb₁.sound hperform
      rw [hclock] at hlast ⊢
      obtain ⟨next', hrota', hnext', hlater'⟩ := Contact.rota_visits hnext hlast
      refine ⟨next', hrota.append hrota', ?_, hlater'⟩
      rw [hcontact]
      exact hnext'
    · have hclock : b₂.acia.now = b₁.acia.now := (perform_steps hperform hcycles).1.now
      rw [b₁.visits_eq_nil hcycles, List.append_nil, hclock, hcontact,
        Contact.due?_after_of_pending (by rw [hnext]; rfl) hop hcycles]
      exact ⟨next, hrota, hnext, hlater₁⟩
  | shelve _ _ ih => exact ih hlast

end Attended

/-- Every course in which RS423 stays selected has its visits. -/
theorem Course.attended {b b' : Board ρ}
    (h : Course (fun _ op => op.selection true = true) b b') : ∃ visits, Attended b visits b' := by
  induction h with
  | refl => exact ⟨[], .refl⟩
  | perform _ hop hperform ih =>
    obtain ⟨visits, hattended⟩ := ih
    exact ⟨_, hattended.perform hop hperform⟩
  | shelve _ shelf ih =>
    obtain ⟨visits, hattended⟩ := ih
    exact ⟨visits, hattended.shelve shelf⟩

/-- RS423 has been selected at some time, and has stayed selected since then. -/
theorem Reachable.exists_selection {b : Board ρ} (hb : b.Reachable)
    (hselected : b.acia.chip.rs423Selected = true) :
    ∃ (b₀ : Board ρ) (op : Operation ρ) (reply : Reply) (b₁ : Board ρ) (visits : List Visit),
      b₀.Reachable ∧ b₀.acia.chip.rs423Selected = false ∧ op.selection false = true ∧
      b₀.perform op = .ok (reply, b₁) ∧ Attended b₁ visits b := by
  induction hb with
  | start h =>
    obtain ⟨-, -, hacia⟩ := ofConfig_eq h
    rw [hacia] at hselected
    exact absurd hselected Bool.false_ne_true
  | shelve _ shelf ih =>
    obtain ⟨b₀, op, reply, b₁, visits, hb₀, hbefore, hop, hperform, hattended⟩ := ih hselected
    exact ⟨b₀, op, reply, b₁, visits, hb₀, hbefore, hop, hperform, hattended.shelve shelf⟩
  | @perform b b' hb op reply h ih =>
    rw [perform_selection hb h] at hselected
    cases hbefore : b.acia.chip.rs423Selected with
    | false =>
      rw [hbefore] at hselected
      exact ⟨b, op, reply, b', [], hb, hbefore, hselected, h, .refl⟩
    | true =>
      rw [hbefore] at hselected
      obtain ⟨b₀, op₀, reply₀, b₁, visits, hb₀, hbefore, hop, hperform, hattended⟩ := ih hbefore
      exact ⟨b₀, op₀, reply₀, b₁, _, hb₀, hbefore, hop, hperform, hattended.perform hselected h⟩

/-! ### The rota -/

/-- How a board attends to the device on its line. -/
structure Attends (b : Board ρ) : Prop where
  /-- From a selection that finds the cassette selected, for as long as RS423 stays selected and
  whatever else happens: the first visit is when a character has taken its time since, each of the
  others as long after the one before as a character took then, and none that was due is missing.
  On the visits the device is asked for a byte, and at no other time. -/
  rota : ∀ {op : Operation ρ} {reply : Reply} {b₁ b₂ : Board ρ} {visits : List Visit},
    b.acia.chip.rs423Selected = false → op.selection false = true →
    b.perform op = .ok (reply, b₁) → Attended b₁ visits b₂ →
    b₂.acia.now.count < Cycles.last.count →
    ∃ next, Rota (b.acia.now.count + b₁.acia.chip.byteTime.count) visits next ∧
      b₂.acia.now.count < next ∧
      b₂.acia.chip.asks = b.acia.chip.asks ++ visits.filterMap Visit.moment?
  /-- If RS423 is selected, it has been selected like that. -/
  started : b.acia.chip.rs423Selected = true →
    ∃ (b₀ : Board ρ) (op : Operation ρ) (reply : Reply) (b₁ : Board ρ) (visits : List Visit),
      b₀.Reachable ∧ b₀.acia.chip.rs423Selected = false ∧ op.selection false = true ∧
      b₀.perform op = .ok (reply, b₁) ∧ Attended b₁ visits b
  /-- A visit takes the time of a character with the registers that are in force, and on it the
  device is asked with the request to send that they make.  What it offers arrives there and then,
  once, in its place among everything else that is heard. -/
  asked : ∀ {cycles : Cycles} {reply : Reply} {b' : Board ρ},
    b.perform (.poll cycles) = .ok (reply, b') → b'.acia.now.count < Cycles.last.count →
    Asks (Acia.Control.requestToSend b.acia.chip.control) b.acia.chip.byteTime b.acia.chip.peer
      (b.visits (.poll cycles)) b'.acia.chip.peer ∧
    ∃ moments, b'.acia.chip.trace = b.acia.chip.trace ++ moments ∧
      moments.filter (·.event.isOnLine) = (b.visits (.poll cycles)).filterMap Visit.moment? ∧
      b'.acia.chip.reception = (Acia.heard b.acia.chip.rs423Selected moments).foldl Reception.after
        b.acia.chip.reception
  /-- A byte that is written while RS423 is selected is heard once. -/
  heard : ∀ {address : UInt16} {value : UInt8} {reply : Reply} {b' : Board ρ} {peer : ρ},
    Acia.isData address = true → b.acia.chip.rs423Selected = true →
    b.acia.chip.peer = some peer → b.perform (.write address value) = .ok (reply, b') →
    b'.acia.now.count < Cycles.last.count →
    b'.acia.chip.passed = b.acia.chip.passed ++ [⟨b.acia.now, .transmitted value⟩] ∧
    b'.acia.chip.peer = some (Acia.SerialPeer.hear peer value)
  /-- Nothing else passes on the line than that. -/
  passed : ∀ {op : Operation ρ} {reply : Reply} {b' : Board ρ}, b.perform op = .ok (reply, b') →
    b'.acia.now.count < Cycles.last.count →
    b'.acia.chip.passed
      = b.acia.chip.passed ++ ((b.visits op).filterMap Visit.moment? ++ b.sent op)
  /-- Nothing but the passing of time moves a visit that is due, while RS423 stays selected. -/
  keeps : ∀ {op : Operation ρ} {reply : Reply} {b' : Board ρ}, b.perform op = .ok (reply, b') →
    b'.acia.now.count < Cycles.last.count → b.acia.chip.rs423Selected = true →
    op.selection true = true → (∀ cycles, op ≠ .poll cycles) →
    b'.acia.contact.due? = b.acia.contact.due?
  /-- A visit is due exactly while RS423 is selected. -/
  due : b.acia.contact.due?.isSome = b.acia.chip.rs423Selected
  /-- While the cassette is selected nothing passes. -/
  silent : b.acia.chip.rs423Selected = false → ∀ {op : Operation ρ} {reply : Reply}
    {b' : Board ρ}, b.perform op = .ok (reply, b') → b'.acia.now.count < Cycles.last.count →
    b'.acia.chip.passed = b.acia.chip.passed
  /-- Time may be cut anywhere. -/
  cut : ∀ {first second : Cycles},
    b.acia.now.count + first.count + second.count < Cycles.last.count →
    ∃ (reply₁ reply₂ reply : Reply) (b₁ b₂ : Board ρ),
      b.perform (.poll first) = .ok (reply₁, b₁) ∧ b₁.perform (.poll second) = .ok (reply₂, b₂) ∧
      b.perform (.poll (first + second)) = .ok (reply, b₂) ∧
      b.visits (.poll (first + second)) = b.visits (.poll first) ++ b₁.visits (.poll second)

section

variable {b b' : Board ρ} {reply : Reply}

/-- What a poll adds to the trace, and what is heard of it. -/
theorem asked_poll (hb : b.Reachable) {cycles : Cycles}
    (h : b.perform (.poll cycles) = .ok (reply, b'))
    (hlast : b'.acia.now.count < Cycles.last.count) :
    ∃ moments, b'.acia.chip.trace = b.acia.chip.trace ++ moments ∧
      moments.filter (·.event.isOnLine) = (b.visits (.poll cycles)).filterMap Visit.moment? ∧
      b'.acia.chip.reception = (Acia.heard b.acia.chip.rs423Selected moments).foldl Reception.after
        b.acia.chip.reception := by
  have hpassed := perform_passed hb h hlast
  rcases perform_cases h with ⟨_, e, heq, hpoll, -⟩ | hop
  · obtain rfl := Operation.poll.inj heq
    obtain ⟨timers, chip, hadv, -, ha⟩ := Acia.Sound.poll_ok hpoll
    obtain ⟨moments, htrace, -, hreception⟩ := (Acia.Hears.advance hb.sound.timed (fun _ => True)
      (fun _ _ _ => trivial) (fun _ _ => trivial) hadv).grown
    have htrace' : b'.acia.chip.trace = b.acia.chip.trace ++ moments := by
      rw [ha]
      exact htrace
    refine ⟨moments, htrace', ?_, ?_⟩
    · unfold Acia.Chip.passed at hpassed
      rw [htrace', List.filter_append] at hpassed
      exact (List.append_cancel_left hpassed).trans (List.append_nil _)
    · rw [ha]
      exact hreception
  · exact absurd rfl (hop cycles)

/-- While the cassette is selected nothing passes on the line. -/
theorem passed_of_cassette (hb : b.Reachable) (hcassette : b.acia.chip.rs423Selected = false)
    {op : Operation ρ} (h : b.perform op = .ok (reply, b'))
    (hlast : b'.acia.now.count < Cycles.last.count) :
    b'.acia.chip.passed = b.acia.chip.passed := by
  have hidle := hb.due?_of_cassette hcassette
  have hvisits : b.visits op = [] := by
    cases op with
    | poll cycles =>
      simp only [visits, Contact.visits, Contact.nextVisits, hidle]
      rfl
    | _ => rfl
  have hsent : b.sent op = [] := by
    cases op with
    | write address value =>
      have hselected : b.acia.contact.rs423Selected = false := hcassette
      simp [sent, Contact.sent, hselected]
    | _ => rfl
  rw [perform_passed hb h hlast, hvisits, hsent]
  exact List.append_nil _

/-- Time may be cut anywhere. -/
theorem visits_cut (hb : b.Reachable) {first second : Cycles}
    (hend : b.acia.now.count + first.count + second.count < Cycles.last.count) :
    ∃ (reply₁ reply₂ reply : Reply) (b₁ b₂ : Board ρ),
      b.perform (.poll first) = .ok (reply₁, b₁) ∧ b₁.perform (.poll second) = .ok (reply₂, b₂) ∧
      b.perform (.poll (first + second)) = .ok (reply, b₂) ∧
      b.visits (.poll (first + second)) = b.visits (.poll first) ++ b₁.visits (.poll second) := by
  obtain ⟨e₁, a₁, e₂, a₂, hfirst, hsecond, hboth, -⟩ := hb.sound.poll_split hend
  have hperform {b : Board ρ} {cycles : Cycles} {e : Option Tape.Error} {a : Acia ρ}
      (h : b.acia.poll cycles = .ok (e, a)) :
      b.perform (.poll cycles) = .ok (e.elim .none .failed, b.withAcia a) := by
    simp only [perform, h]
    rfl
  have hnow : a₁.now = b.acia.now + first :=
    perform_now hb.sound (hperform hfirst)
  rw [Cycles.count_last] at hend
  have hbefore : (b.acia.now + first).count = b.acia.now.count + first.count := by
    rw [Cycles.count_add]
    omega
  have hcontact : a₁.contact = b.acia.contact.follow (b.acia.now + first) :=
    contact_poll hb.sound hb.wired hfirst (by rw [hnow, hbefore, Cycles.count_last]; omega)
  have hsum : b.acia.now + (first + second) = b.acia.now + first + second := by
    apply Cycles.ext
    simp only [Cycles.count_add]
    omega
  refine ⟨_, _, _, b.withAcia a₁, (b.withAcia a₁).withAcia a₂, hperform hfirst,
    hperform (b := b.withAcia a₁) hsecond, hperform hboth, ?_⟩
  change b.acia.contact.visits _ = _ ++ a₁.contact.visits (a₁.now + second)
  rw [hsum, hnow, hcontact]
  refine Contact.visits_follow (Scheduler.count_le_add _ _) ?_
  rw [Cycles.count_add, hbefore, Cycles.count_last]
  omega

end

/-- **A device on the line is visited once in the time of a character, and only while RS423 is
selected.** -/
theorem Reachable.attends {b : Board ρ} (hb : b.Reachable) : b.Attends where
  rota := by
    intro op reply b₁ b₂ visits hcassette hop hperform hattended hlast
    have hb₁ := hb.perform hperform
    have hidle := hb.due?_of_cassette hcassette
    have hcycles : ∀ cycles, op ≠ .poll cycles := by
      rintro cycles rfl
      exact Bool.false_ne_true hop
    have hnow₁ : b₁.acia.now = b.acia.now := (perform_steps hperform hcycles).1.now
    have hlast₁ : b₁.acia.now.count < Cycles.last.count :=
      Nat.lt_of_le_of_lt (hattended.course.now_le hb₁) hlast
    have hcontact := perform_contact hb hperform hlast₁
    have hdue : b₁.acia.contact.due?
        = some (.ofNat (b.acia.now.count + b₁.acia.chip.byteTime.count)) := by
      have hdue : (b.acia.contact.after b.acia.now op).due?
          = some (b.acia.now + (b.acia.contact.after b.acia.now op).byteTime) :=
        Contact.due?_after_of_idle hidle hop
      rw [← hcontact] at hdue
      exact hdue
    have htime := Contact.byteTime_pos b₁.acia.contact
    obtain ⟨next, hrota, -, hlater⟩ := hattended.rota hb₁ hdue (by
      rw [hnow₁]
      exact Nat.lt_add_of_pos_right htime) hlast
    refine ⟨next, hrota, hlater, ?_⟩
    rw [hattended.asks hb₁ hlast, perform_asks hb hperform hlast₁, b.visits_eq_nil hcycles]
    simp
  started := hb.exists_selection
  asked := by
    intro cycles reply b' hperform hlast
    have hcontact := perform_contact hb hperform hlast
    refine ⟨?_, asked_poll hb hperform hlast⟩
    have hasks := b.acia.contact.asks_visits (b.acia.now + cycles)
    have hpeer : b'.acia.chip.peer = (b.acia.contact.follow (b.acia.now + cycles)).peer :=
      congrArg Contact.peer hcontact
    rw [hpeer]
    exact hasks
  heard := by
    intro address value reply b' peer haddress hselected hpeer hperform hlast
    have hcontact := perform_contact hb hperform hlast
    have hafter : b.acia.contact.after b.acia.now (.write address value)
        = b.acia.contact.send b.acia.now value := if_pos haddress
    have hselected : b.acia.contact.rs423Selected = true := hselected
    have hpeer : b.acia.contact.peer = some peer := hpeer
    rw [hafter] at hcontact
    refine ⟨(congrArg Contact.passed hcontact).trans ?_, (congrArg Contact.peer hcontact).trans ?_⟩
    · simp only [Contact.send, Contact.sent, hselected, hpeer]
      rfl
    · simp only [Contact.send, hselected, hpeer]
      rfl
  passed := fun hperform hlast => perform_passed hb hperform hlast
  keeps := by
    intro op reply b' hperform hlast hselected hop hcycles
    rw [perform_contact hb hperform hlast]
    exact Contact.due?_after_of_pending (hb.isSome_due?.trans hselected) hop hcycles
  due := hb.isSome_due?
  silent := fun hcassette {_ _ _} hperform hlast => passed_of_cassette hb hcassette hperform hlast
  cut := visits_cut hb

/-- A device that has bytes to offer while the chip requests to send, and keeps what it hears. -/
structure Caller where
  ahead : List UInt8
  heard : List UInt8 := []

instance : Acia.SerialPeer Caller where
  offer c requestToSend :=
    if requestToSend then (c.ahead.head?, { c with ahead := c.ahead.tail }) else (none, c)
  hear c b := { c with heard := c.heard ++ [b] }

/-- A board of the default configuration, with a caller on its line. -/
def called : Board Caller :=
  ({ acia :=
      { chip := { clock := .standard, receiveRate := 19200 }
        timers := Acia.Timer.all.foldl (fun s timer => (s.register timer).2) {}
        transmitDelay := 2000 } } : Board Caller).after [.attachPeer (some ⟨[0x41, 0x42], []⟩)]

theorem reachable_called : called.Reachable :=
  (Reachable.start (show Board.ofConfig {} = .ok _ from rfl)).after _

/-- A program that selects RS423 once more, starts the motor, answers, halves the rate and then
withholds its request to send, on a host that lets time pass in four steps. -/
def answering : List (Operation Caller) :=
  [.poll 1000, .selectRs423 true, .switchMotor true, .poll 200, .write 1 0x55, .setReceiveRate 9600,
    .poll 3000, .write 0 0x40, .poll 3000]

/-- The device is asked after 1041 cycles and again 1041 cycles later, and then every 2083. -/
theorem attends_called :
    ∃ (b₁ b₂ : Board Caller) (reply : Reply) (visits : List Visit), called.Reachable ∧
      called.acia.chip.rs423Selected = false ∧
      Operation.selection (ρ := Caller) false (.ulaWrite 0x40) = true ∧
      called.perform (.ulaWrite 0x40) = .ok (reply, b₁) ∧ Attended b₁ visits b₂ ∧
      b₂.acia.now.count < Cycles.last.count ∧
      b₂.acia.chip.asks.map (·.cycle.count) = [1041, 2082, 4165, 6248] ∧
      b₂.acia.chip.peer.map (·.heard) = some [0x55] ∧ b₂.acia.chip.data = 0x42 ∧
      ∃ next, Rota (called.acia.now.count + b₁.acia.chip.byteTime.count) visits next ∧
        b₂.acia.now.count < next ∧
        b₂.acia.chip.asks = called.acia.chip.asks ++ visits.filterMap Visit.moment? := by
  obtain ⟨reply, hperform⟩ := perform_after called (.ulaWrite 0x40) (by decide +kernel)
  obtain ⟨replies, hrun⟩ :=
    run_after (called.after [.ulaWrite 0x40]) answering (by decide +kernel)
  obtain ⟨visits, hattended⟩ := (Course.refl.run (fun op hop _ => by
    simp only [answering, List.mem_cons, List.not_mem_nil, or_false] at hop
    rcases hop with rfl | rfl | rfl | rfl | rfl | rfl | rfl | rfl | rfl <;> rfl) hrun).attended
  have hlast : ((called.after [.ulaWrite 0x40]).after answering).acia.now.count
      < Cycles.last.count := by
    decide +kernel
  exact ⟨_, _, reply, visits, reachable_called, by decide +kernel, rfl, hperform, hattended, hlast,
    by decide +kernel, by decide +kernel, by decide +kernel,
    reachable_called.attends.rota (by decide +kernel) rfl hperform hattended hlast⟩

end Board

end Cassette
