import Mathlib
import Chip8.Proofs.Interpreter.Run
import Chip8.Proofs.Pacer
import Chip8.Session.Event

namespace Chip8

open Interpreter (Operation)

namespace Input

/-- With this input the window is closed, whatever else is in it. -/
def ends (input : Input) : Bool := input.pressed.contains .escape || input.quit

/-- What the keys beside the keypad ask for. -/
def controls (input : Input) : List Operation :=
  (if input.pressed.contains .p then [.togglePause] else []) ++
    (if input.pressed.contains .right then [.advance] else []) ++
    (if input.pressed.contains .left then [.back] else []) ++
    if input.pressed.contains .backspace then [.reset] else []

/-- What a key of the keypad asks for. -/
def onKey (input : Input) (key : HostKey × UInt8) : List Operation :=
  .hold key.2 (input.held.contains key.1) ::
    if input.pressed.contains key.1 then [.press key.2] else []

def operations (input : Input) (order : KeyOrder) : List Operation :=
  input.controls ++ order.keys.flatMap input.onKey

/-- No key is the clock. -/
theorem operations_ne (input : Input) (order : KeyOrder) {op : Operation}
    (h : op ∈ input.operations order) : op ≠ .cycle ∧ op ≠ .tick := by
  simp only [operations, controls, onKey, List.mem_append, List.mem_flatMap, List.mem_cons] at h
  rcases h with (((h | h) | h) | h) | ⟨key, -, rfl | h⟩
  case inr.inl => exact ⟨nofun, nofun⟩
  all_goals
    split at h
    · cases List.mem_singleton.mp h
      exact ⟨nofun, nofun⟩
    · cases h

end Input

/-- What the keys of an event ask for. -/
def Event.operations : Event → List Operation
  | .batch _ order input => if input.ends then [] else input.operations order
  | .redraw _ | .other => []

theorem Event.operations_ne (event : Event) {op : Operation} (h : op ∈ event.operations) :
    op ≠ .cycle ∧ op ≠ .tick := by
  cases event with
  | batch now order input =>
    obtain ⟨-, h⟩ := (List.mem_ite_nil_left).mp h
    exact input.operations_ne order h
  | redraw failure => cases h
  | other => cases h

namespace Session

theorem after_asked (i : Interpreter) (asked : Bool) (op : Operation) :
    i.after (if asked then [op] else []) = if asked then (i.perform op).2 else i := by
  cases asked <;> rfl

theorem control_eq (input : Input) (i : Interpreter) :
    (control input i).2 = i.after input.controls := by
  simp only [control, Input.controls, Interpreter.after_append, after_asked, Interpreter.perform]
  generalize (if input.pressed.contains .right then Interpreter.advance _ else _) = stepped
  cases input.pressed.contains .left with
  | false => rfl
  | true =>
    simp only [↓reduceIte]
    cases stepped.back? <;> rfl

theorem enterKeys_eq (input : Input) (layout : List (HostKey × UInt8)) (i : Interpreter) :
    enterKeys input layout i = i.after (layout.flatMap input.onKey) := by
  induction layout generalizing i with
  | nil => rfl
  | cons key layout ih =>
    have hkey : enterKey input i key = i.after (input.onKey key) := by
      unfold enterKey Input.onKey
      cases input.pressed.contains key.1 <;> rfl
    rw [List.flatMap_cons, Interpreter.after_append, ← hkey, ← ih]
    rfl

theorem runCycles_eq (cycles : Nat) (i : Interpreter) :
    runCycles cycles i = i.after (List.replicate cycles .cycle ++ [.tick]) := by
  have hrepeat :
      Nat.repeat Interpreter.cycle cycles i = i.after (List.replicate cycles .cycle) := by
    induction cycles with
    | zero => rfl
    | succ cycles ih =>
      rw [Nat.repeat, ih, List.replicate_succ', Interpreter.after_append]
      rfl
  rw [Interpreter.after_append, ← hrepeat]
  rfl

/-- A frame that an event let run. -/
structure Frame where
  /-- The reading of the clock. -/
  now : Nat
  /-- The session once the keys of the event had been handled. -/
  before : Session

namespace Frame

def cycles (f : Frame) : Nat := f.before.pacer.nextFrame.1.toNat

def operations (f : Frame) : List Operation := List.replicate f.cycles .cycle ++ [.tick]

/-- The cycles that are counted of a frame. One that is paused counts as one without cycles. -/
def recorded (f : Frame) : UInt32 :=
  if f.before.interpreter.paused then 0 else f.before.pacer.nextFrame.1

/-- The pacer once the frame is counted, if it can be. -/
def counted (f : Frame) : Except PacerError Pacer :=
  f.before.pacer.nextFrame.2.record f.now f.recorded

/-- The session that waits for the next frame. -/
def after (f : Frame) : Except PacerError Session :=
  (f.before.frame f.now).map fun r => { r.2 with waiting := .wakeAt r.2.deadline }

/-- The sums that are formed when the frame is counted fit. -/
def Fits (f : Frame) : Prop := f.before.pacer.Takes f.recorded

instance (f : Frame) : Decidable f.Fits := inferInstanceAs (Decidable (Pacer.Takes _ _))

theorem exists_counted_iff (f : Frame) : (∃ pacer, f.counted = .ok pacer) ↔ f.Fits :=
  Pacer.exists_record_iff f.before.pacer.nextFrame.2 f.now f.recorded

theorem frame_of_counted {f : Frame} {pacer : Pacer} (h : f.counted = .ok pacer) :
    ∃ reaction s, f.before.frame f.now = .ok (reaction, s) ∧ reaction.redraws = 1 ∧
      s.pacer = pacer ∧ s.interpreter = f.before.interpreter.after f.operations ∧
      s.deadline = nextDeadline f.before.deadline f.now pacer.frameDuration := by
  have hrecord : f.before.pacer.nextFrame.2.record f.now
      (if f.before.interpreter.paused then 0 else f.before.pacer.nextFrame.1) = .ok pacer := h
  unfold Session.frame
  dsimp only
  rw [hrecord]
  exact ⟨_, _, rfl, rfl, rfl, runCycles_eq f.cycles f.before.interpreter, rfl⟩

theorem frame_of_not_fits {f : Frame} (h : ¬ f.Fits) :
    f.before.frame f.now = .error .overflow := by
  have hrecord : f.before.pacer.nextFrame.2.record f.now
      (if f.before.interpreter.paused then 0 else f.before.pacer.nextFrame.1) =
        .error .overflow := Pacer.record_overflow (p := f.before.pacer.nextFrame.2) h f.now
  unfold Session.frame
  dsimp only
  rw [hrecord]
  rfl

/-- All that a frame does to its session. -/
theorem after_eq_ok {f : Frame} {s : Session} (h : f.after = .ok s) :
    f.Fits ∧ f.counted = .ok s.pacer ∧
      s.interpreter = f.before.interpreter.after f.operations ∧
      s.deadline = nextDeadline f.before.deadline f.now s.pacer.frameDuration ∧
      s.waiting ≠ .closed := by
  by_cases hfits : f.Fits
  · obtain ⟨pacer, hpacer⟩ := f.exists_counted_iff.mpr hfits
    obtain ⟨reaction, s', hframe, -, rfl, hinterpreter, hdeadline⟩ := frame_of_counted hpacer
    rw [after, hframe] at h
    cases h
    exact ⟨hfits, hpacer, hinterpreter, hdeadline, nofun⟩
  · rw [after, frame_of_not_fits hfits] at h
    cases h

end Frame

/-- The session once the keys of an input have been handled. -/
def entered (s : Session) (order : KeyOrder) (input : Input) : Session :=
  { s with interpreter := s.interpreter.after (input.operations order) }

/-- The frame that an event lets run. -/
def frame? (s : Session) : Event → Option Frame
  | .batch now order input =>
    if input.ends = false ∧ s.deadline ≤ now then some ⟨now, s.entered order input⟩ else none
  | .redraw _ | .other => none

theorem frame?_eq_some {s : Session} {event : Event} {f : Frame} (h : s.frame? event = some f) :
    ∃ order input, event = .batch f.now order input ∧ input.ends = false ∧ s.deadline ≤ f.now ∧
      f.before = s.entered order input := by
  cases event with
  | batch now order input =>
    obtain ⟨⟨hends, hdue⟩, h⟩ := Option.ite_none_right_eq_some.mp h
    cases h
    exact ⟨order, input, rfl, hends, hdue, rfl⟩
  | redraw failure => cases h
  | other => cases h

/-- A frame is run if it is due when a batch of input is complete. -/
theorem isSome_frame?_iff (s : Session) (event : Event) :
    (s.frame? event).isSome ↔
      ∃ now order input, event = .batch now order input ∧ input.ends = false ∧
        s.deadline ≤ now := by
  constructor
  · intro h
    obtain ⟨f, hf⟩ := Option.isSome_iff_exists.mp h
    obtain ⟨order, input, hevent, hends, hdue, -⟩ := frame?_eq_some hf
    exact ⟨f.now, order, input, hevent, hends, hdue⟩
  · rintro ⟨now, order, input, rfl, hends, hdue⟩
    rw [frame?, if_pos ⟨hends, hdue⟩]
    rfl

/-- A frame finds the session as the event did, but for what the keys asked for. -/
theorem before_of_frame? {s : Session} {event : Event} {f : Frame} (h : s.frame? event = some f) :
    s.deadline ≤ f.now ∧ f.before.deadline = s.deadline ∧ f.before.pacer = s.pacer ∧
      f.before.interpreter = s.interpreter.after event.operations := by
  obtain ⟨order, input, rfl, hends, hdue, hbefore⟩ := frame?_eq_some h
  rw [hbefore, Event.operations, hends]
  exact ⟨hdue, rfl, rfl, rfl⟩

theorem enter_eq (input : Input) (order : KeyOrder) (i : Interpreter) :
    enterKeys input order.keys (control input i).2 = i.after (input.operations order) := by
  rw [enterKeys_eq, control_eq, Input.operations, Interpreter.after_append]

/-- A batch that does not end the session: first its keys, then the frame if that is due. -/
theorem batch_open (s : Session) (now : Nat) (order : KeyOrder) {input : Input}
    (h : input.ends = false) :
    s.batch now order input =
      if s.deadline ≤ now then
        ((s.entered order input).frame now).map fun r =>
          ({ r.1 with log := (control input s.interpreter).1 },
            { r.2 with waiting := .wakeAt r.2.deadline })
      else
        .ok ({ Reaction.none with log := (control input s.interpreter).1 },
          { s.entered order input with waiting := .wakeAt s.deadline }) := by
  have hopen : ¬ (input.pressed.contains .escape || input.quit) = true := ne_true_of_eq_false h
  simp only [batch, if_neg hopen, enter_eq]
  split
  · change (s.entered order input).frame now >>= _ = _
    cases (s.entered order input).frame now <;> rfl
  · rfl

/-- The event's frame, if it has one, decides whether there is an answer. -/
theorem handle_frame {s : Session} {event : Event} {f : Frame} (h : s.frame? event = some f) :
    (∀ reaction s', s.handle event = .ok (reaction, s') → f.after = .ok s' ∧ reaction.redraws = 1) ∧
      ((∃ answer, s.handle event = .ok answer) ↔ f.Fits) := by
  obtain ⟨order, input, rfl, hends, hdue, hbefore⟩ := frame?_eq_some h
  rw [handle, batch_open s f.now order hends, if_pos hdue, ← hbefore]
  by_cases hfits : f.Fits
  · obtain ⟨pacer, hpacer⟩ := f.exists_counted_iff.mpr hfits
    obtain ⟨reaction, s', hframe, hredraws, -⟩ := Frame.frame_of_counted hpacer
    rw [Frame.after, hframe]
    refine ⟨?_, fun _ => hfits, fun _ => ⟨_, rfl⟩⟩
    intro reaction' s'' hok
    obtain ⟨rfl, rfl⟩ := Prod.mk.inj (Except.ok.inj hok)
    exact ⟨rfl, hredraws⟩
  · rw [Frame.frame_of_not_fits hfits]
    refine ⟨?_, ?_, fun hfits' => absurd hfits' hfits⟩
    · intro reaction s' hok
      cases hok
    · rintro ⟨answer, hok⟩
      cases hok

/-- Without a frame there is nothing new to see, and the next one is due when it was. -/
theorem handle_no_frame {s : Session} {event : Event} (h : s.frame? event = none) :
    ∃ reaction s', s.handle event = .ok (reaction, s') ∧
      s'.interpreter = s.interpreter.after event.operations ∧ s'.pacer = s.pacer ∧
      s'.deadline = s.deadline ∧ reaction.redraws = 0 := by
  cases event with
  | batch now order input =>
    cases hends : input.ends with
    | true =>
      have hclose : s.batch now order input = .ok (.none, { s with waiting := .closed }) :=
        if_pos hends
      rw [handle, hclose, Event.operations, hends]
      exact ⟨_, _, rfl, rfl, rfl, rfl, rfl⟩
    | false =>
      have hnot : ¬ s.deadline ≤ now := fun hdue => by
        rw [frame?, if_pos ⟨hends, hdue⟩] at h
        cases h
      rw [handle, batch_open s now order hends, if_neg hnot, Event.operations, hends]
      exact ⟨_, _, rfl, rfl, rfl, rfl, rfl⟩
  | redraw failure => cases failure <;> exact ⟨_, _, rfl, rfl, rfl, rfl, rfl⟩
  | other => exact ⟨_, _, rfl, rfl, rfl, rfl, rfl⟩

/-- All that an event with an answer does. -/
theorem handle_eq_ok {s s' : Session} {event : Event} {reaction : Reaction}
    (h : s.handle event = .ok (reaction, s')) :
    (∃ f, s.frame? event = some f ∧ f.after = .ok s' ∧ reaction.redraws = 1) ∨
      s.frame? event = none ∧ s'.interpreter = s.interpreter.after event.operations ∧
        s'.pacer = s.pacer ∧ s'.deadline = s.deadline ∧ reaction.redraws = 0 := by
  cases hframe : s.frame? event with
  | some f => exact .inl ⟨f, rfl, (handle_frame hframe).1 _ _ h⟩
  | none =>
    obtain ⟨_, _, hok, hrest⟩ := handle_no_frame hframe
    cases hok.symm.trans h
    exact .inr ⟨rfl, hrest⟩

/-- A session does not survive a frame that cannot be counted. -/
theorem exists_handle_iff (s : Session) (event : Event) :
    (∃ answer, s.handle event = .ok answer) ↔ ∀ f, s.frame? event = some f → f.Fits := by
  cases hframe : s.frame? event with
  | some f =>
    rw [(handle_frame hframe).2]
    exact ⟨fun hfits g hg => Option.some.inj hg ▸ hfits, fun hall => hall f rfl⟩
  | none =>
    obtain ⟨reaction, s', hok, -⟩ := handle_no_frame hframe
    refine iff_of_true ⟨_, hok⟩ ?_
    intro f hf
    cases hf

/-- What an event asks of the interpreter in all: its keys, then the frame that it lets run. -/
def operationsOf (s : Session) (event : Event) : List Operation :=
  event.operations ++ (s.frame? event).toList.flatMap Frame.operations

theorem interpreter_handle {s s' : Session} {event : Event} {reaction : Reaction}
    (h : s.handle event = .ok (reaction, s')) :
    s'.interpreter = s.interpreter.after (s.operationsOf event) := by
  unfold operationsOf
  rcases handle_eq_ok h with ⟨f, hframe, hafter, -⟩ | ⟨hframe, hinterpreter, -⟩
  · obtain ⟨-, -, -, hbefore⟩ := before_of_frame? hframe
    obtain ⟨-, -, hinterpreter, -⟩ := Frame.after_eq_ok hafter
    rw [hinterpreter, hbefore, hframe, Option.toList_some, List.flatMap_singleton,
      Interpreter.after_append]
  · rw [hinterpreter, hframe, Option.toList_none, List.flatMap_nil, List.append_nil]

/-- A redraw is asked for by each frame, and by nothing else. -/
theorem redraws_handle {s s' : Session} {event : Event} {reaction : Reaction}
    (h : s.handle event = .ok (reaction, s')) :
    reaction.redraws = (s.frame? event).toList.length := by
  rcases handle_eq_ok h with ⟨f, hframe, -, hredraws⟩ | ⟨hframe, -, -, -, hredraws⟩
  · rw [hframe, hredraws]
    rfl
  · rw [hframe, hredraws]
    rfl

/-- The events of a list for which the session is still open, each with the session it meets. -/
def met (s : Session) : List Event → List (Session × Event)
  | [] => []
  | event :: rest =>
    if s.waiting = .closed then []
    else (s, event) :: match s.handle event with
      | .ok (_, s') => s'.met rest
      | .error _ => []

/-- The session after a list of events. -/
def run (s : Session) : List Event → Except PacerError Session
  | [] => .ok s
  | event :: rest =>
    if s.waiting = .closed then .ok s
    else match s.handle event with
      | .ok (_, s') => s'.run rest
      | .error e => .error e

/-- All frames of a run, with the one that it does not survive. -/
def frames (s : Session) (events : List Event) : List Frame :=
  (s.met events).filterMap fun m => m.1.frame? m.2

/-- All that a run asks of the interpreter. -/
def operations (s : Session) (events : List Event) : List Operation :=
  (s.met events).flatMap fun m => m.1.operationsOf m.2

section run

variable {s s' : Session} {reaction : Reaction} {e : PacerError}

theorem run_closed (h : s.waiting = .closed) (events : List Event) :
    s.met events = [] ∧ s.run events = .ok s := by
  cases events with
  | nil => exact ⟨rfl, rfl⟩
  | cons event rest => exact ⟨if_pos h, if_pos h⟩

theorem run_ok {event : Event} (h : s.waiting ≠ .closed)
    (hok : s.handle event = .ok (reaction, s')) (rest : List Event) :
    s.met (event :: rest) = (s, event) :: s'.met rest ∧ s.run (event :: rest) = s'.run rest := by
  rw [met, run, if_neg h, if_neg h, hok]
  exact ⟨rfl, rfl⟩

theorem run_error {event : Event} (h : s.waiting ≠ .closed) (herror : s.handle event = .error e)
    (rest : List Event) :
    s.met (event :: rest) = [(s, event)] ∧ s.run (event :: rest) = .error e := by
  rw [met, run, if_neg h, if_neg h, herror]
  exact ⟨rfl, rfl⟩

theorem frames_closed (h : s.waiting = .closed) (events : List Event) : s.frames events = [] := by
  rw [frames, (run_closed h events).1, List.filterMap_nil]

theorem frames_ok {event : Event} (h : s.waiting ≠ .closed)
    (hok : s.handle event = .ok (reaction, s')) (rest : List Event) :
    s.frames (event :: rest) = (s.frame? event).toList ++ s'.frames rest := by
  rw [frames, (run_ok h hok rest).1, List.filterMap_cons]
  cases s.frame? event <;> rfl

theorem frames_error {event : Event} (h : s.waiting ≠ .closed) (herror : s.handle event = .error e)
    (rest : List Event) : s.frames (event :: rest) = (s.frame? event).toList := by
  rw [frames, (run_error h herror rest).1, List.filterMap_cons]
  cases s.frame? event <;> rfl

theorem operations_closed (h : s.waiting = .closed) (events : List Event) :
    s.operations events = [] := by
  rw [operations, (run_closed h events).1, List.flatMap_nil]

theorem operations_ok {event : Event} (h : s.waiting ≠ .closed)
    (hok : s.handle event = .ok (reaction, s')) (rest : List Event) :
    s.operations (event :: rest) = s.operationsOf event ++ s'.operations rest := by
  rw [operations, (run_ok h hok rest).1, List.flatMap_cons]
  rfl

theorem operations_error {event : Event} (h : s.waiting ≠ .closed)
    (herror : s.handle event = .error e) (rest : List Event) :
    s.operations (event :: rest) = s.operationsOf event := by
  rw [operations, (run_error h herror rest).1, List.flatMap_singleton]

theorem run_append (s : Session) (xs ys : List Event) :
    s.run (xs ++ ys) = s.run xs >>= fun s' => s'.run ys := by
  induction s, xs using run.induct with
  | case1 s => rfl
  | case2 s event rest hclosed =>
    rw [(run_closed hclosed _).2, (run_closed hclosed _).2]
    exact (run_closed hclosed _).2.symm
  | case3 s event rest hopen reaction s' hok ih =>
    rw [List.cons_append, (run_ok hopen hok _).2, (run_ok hopen hok _).2, ih]
  | case4 s event rest hopen e herror =>
    rw [List.cons_append, (run_error hopen herror _).2, (run_error hopen herror _).2]
    rfl

/-- Induction on the events of a run that comes to its end. -/
theorem run_induction {P : Session → List Event → Session → Prop}
    (nil : ∀ s, P s [] s) (closed : ∀ s events, s.waiting = .closed → P s events s)
    (ok : ∀ s event rest reaction s' last, s.waiting ≠ .closed →
      s.handle event = .ok (reaction, s') → P s' rest last → P s (event :: rest) last)
    {events : List Event} (h : s.run events = .ok s') : P s events s' := by
  induction s, events using run.induct with
  | case1 s =>
    cases h
    exact nil s'
  | case2 s event rest hclosed =>
    rw [(run_closed hclosed _).2] at h
    cases h
    exact closed s' _ hclosed
  | case3 s event rest hopen reaction s'' hok ih =>
    rw [(run_ok hopen hok _).2] at h
    exact ok s event rest reaction s'' s' hopen hok (ih h)
  | case4 s event rest hopen e herror =>
    rw [(run_error hopen herror _).2] at h
    cases h

theorem frames_append {xs : List Event} (h : s.run xs = .ok s') (ys : List Event) :
    s.frames (xs ++ ys) = s.frames xs ++ s'.frames ys := by
  refine run_induction (P := fun s xs s' => s.frames (xs ++ ys) = s.frames xs ++ s'.frames ys)
    ?_ ?_ ?_ h
  · intro s
    rfl
  · intro s events hclosed
    rw [frames_closed hclosed, frames_closed hclosed, frames_closed hclosed]
    rfl
  · intro s event rest reaction s' last hopen hok hrest
    rw [List.cons_append, frames_ok hopen hok, frames_ok hopen hok, hrest, List.append_assoc]

theorem run_invariant {P : Session → Prop}
    (hstep : ∀ s event reaction s', P s → s.handle event = .ok (reaction, s') → P s')
    (hs : P s) {events : List Event} (h : s.run events = .ok s') : P s' := by
  refine run_induction (P := fun s _ s' => P s → P s') ?_ ?_ ?_ h hs
  · intro s hs
    exact hs
  · intro s events hclosed hs
    exact hs
  · intro s event rest reaction s' last hopen hok hrest hs
    exact hrest (hstep s event reaction s' hs hok)

theorem interpreter_run {events : List Event} (h : s.run events = .ok s') :
    s'.interpreter = s.interpreter.after (s.operations events) := by
  refine run_induction
    (P := fun s events s' => s'.interpreter = s.interpreter.after (s.operations events)) ?_ ?_ ?_ h
  · intro s
    rfl
  · intro s events hclosed
    rw [operations_closed hclosed, Interpreter.after_nil]
  · intro s event rest reaction s' last hopen hok hrest
    rw [operations_ok hopen hok, Interpreter.after_append, hrest, interpreter_handle hok]

/-- A run comes to an end if all its frames can be counted, and only then. -/
theorem exists_run_iff (s : Session) (events : List Event) :
    (∃ s', s.run events = .ok s') ↔ ∀ f ∈ s.frames events, f.Fits := by
  induction s, events using run.induct with
  | case1 s => exact iff_of_true ⟨s, rfl⟩ (List.forall_mem_nil _)
  | case2 s event rest hclosed =>
    rw [(run_closed hclosed _).2, frames_closed hclosed]
    exact iff_of_true ⟨s, rfl⟩ (List.forall_mem_nil _)
  | case3 s event rest hopen reaction s'' hok ih =>
    have hframe := (exists_handle_iff s event).mp ⟨_, hok⟩
    rw [(run_ok hopen hok _).2, frames_ok hopen hok, List.forall_mem_append, ih]
    exact (and_iff_right fun f hf => hframe f (Option.mem_toList.mp hf)).symm
  | case4 s event rest hopen e herror =>
    have hnot : ¬ ∀ f, s.frame? event = some f → f.Fits := by
      rw [← exists_handle_iff, herror]
      rintro ⟨answer, hok⟩
      cases hok
    rw [(run_error hopen herror _).2, frames_error hopen herror]
    refine ⟨?_, fun hall => absurd (fun f hf => hall f (Option.mem_toList.mpr hf)) hnot⟩
    rintro ⟨s', hok⟩
    cases hok

theorem run_eq_overflow_iff (s : Session) (events : List Event) :
    s.run events = .error .overflow ↔ ∃ f ∈ s.frames events, ¬ f.Fits := by
  have hiff := s.exists_run_iff events
  cases hrun : s.run events with
  | ok s' =>
    have hall := hiff.mp ⟨s', hrun⟩
    refine iff_of_false (fun h => by cases h) ?_
    rintro ⟨f, hf, hnot⟩
    exact hnot (hall f hf)
  | error e =>
    cases e
    refine iff_of_true rfl ?_
    by_contra hnone
    push Not at hnone
    obtain ⟨s', hs'⟩ := hiff.mpr hnone
    cases hrun.symm.trans hs'

theorem mem_frames {event : Event} {f : Frame} (h : s.waiting ≠ .closed)
    (hframe : s.frame? event = some f) (rest : List Event) : f ∈ s.frames (event :: rest) := by
  rw [frames, met, if_neg h, List.filterMap_cons, hframe]
  exact List.mem_cons_self

/-- A session answers the events that it meets, and no others. -/
theorem handleAll_eq (h : s.waiting ≠ .closed) (events : List Event) :
    s.handleAll events = (s.met events).mapM fun m => m.1.handle m.2 := by
  induction events generalizing s with
  | nil => rfl
  | cons event rest ih =>
    rw [handleAll]
    cases hhandle : s.handle event with
    | error e =>
      rw [(run_error h hhandle rest).1, List.mapM_cons, hhandle]
      rfl
    | ok answer =>
      obtain ⟨reaction, s'⟩ := answer
      rw [(run_ok h hhandle rest).1, List.mapM_cons, hhandle]
      change (if s'.waiting = .closed then Except.ok [(reaction, s')]
        else s'.handleAll rest >>= fun later => .ok ((reaction, s') :: later)) = _ >>= _
      by_cases hnext : s'.waiting = .closed
      · rw [if_pos hnext, (run_closed hnext rest).1]
        rfl
      · rw [if_neg hnext, ih hnext]
        rfl

end run

theorem exists_mapM_iff {α β ε : Type} (f : α → Except ε β) (xs : List α) :
    (∃ ys, xs.mapM f = .ok ys) ↔ ∀ x ∈ xs, ∃ y, f x = .ok y := by
  induction xs with
  | nil => exact ⟨fun _ => nofun, fun _ => ⟨[], rfl⟩⟩
  | cons x xs ih =>
    rw [List.mapM_cons, List.forall_mem_cons, ← ih]
    cases f x with
    | error e => exact ⟨nofun, nofun⟩
    | ok y =>
      cases xs.mapM f with
      | error e => exact ⟨nofun, nofun⟩
      | ok ys => exact ⟨fun _ => ⟨⟨y, rfl⟩, ys, rfl⟩, fun _ => ⟨_, rfl⟩⟩

theorem exists_handleAll_iff {s : Session} (h : s.waiting ≠ .closed) (events : List Event) :
    (∃ answers, s.handleAll events = .ok answers) ↔ ∀ f ∈ s.frames events, f.Fits := by
  rw [handleAll_eq h, exists_mapM_iff]
  simp only [exists_handle_iff, frames, List.mem_filterMap, forall_exists_index, and_imp]
  exact ⟨fun hall f m hm hf => hall m hm f hf, fun hall m hm f hf => hall f m hm hf⟩

theorem redraws_handleAll {s : Session} {events : List Event}
    {answers : List (Reaction × Session)} (hopen : s.waiting ≠ .closed)
    (h : s.handleAll events = .ok answers) :
    (answers.map fun r => r.1.redraws).sum = (s.frames events).length := by
  rw [handleAll_eq hopen] at h
  unfold frames
  generalize s.met events = met at h
  induction met generalizing answers with
  | nil =>
    cases h
    rfl
  | cons m met ih =>
    rw [List.mapM_cons] at h
    cases hhandle : m.1.handle m.2 with
    | error e =>
      rw [hhandle] at h
      cases h
    | ok answer =>
      obtain ⟨reaction, s'⟩ := answer
      rw [hhandle] at h
      cases hrest : met.mapM fun m => m.1.handle m.2 with
      | error e =>
        rw [hrest] at h
        cases h
      | ok later =>
        rw [hrest] at h
        cases h
        rw [List.map_cons, List.sum_cons, ih hrest, redraws_handle hhandle, List.filterMap_cons]
        cases m.1.frame? m.2 with
        | none => exact Nat.zero_add _
        | some f => exact Nat.add_comm 1 _

end Session

end Chip8
