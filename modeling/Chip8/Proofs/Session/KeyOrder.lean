import Chip8.Proofs.Interpreter.KeyWait
import Chip8.Proofs.Session.Run

namespace Chip8

open Interpreter (Operation keypadAfter)

namespace Keypad

theorem isHeld_setHeld (k : Keypad) {key : UInt8} (hkey : key.toNat < 16) (down : Bool)
    (n : UInt8) : (k.setHeld key down).isHeld n = if n = key then down else k.isHeld n := by
  unfold setHeld isHeld
  rw [dif_pos hkey]
  split
  · rename_i hn
    by_cases heq : n = key
    · subst heq
      simp
    · have hne : key.toNat ≠ n.toNat := fun h => heq (UInt8.toNat_inj.mp h.symm)
      simp [heq, hne]
  · rename_i hn
    have hne : n ≠ key := fun h => hn (h ▸ hkey)
    rw [if_neg hne]

theorem isHeld_press (k : Keypad) (key n : UInt8) : (k.press key).isHeld n = k.isHeld n := by
  unfold press
  split <;> rfl

/-- A keypad is the keys that are down, the wait and the press that is kept. -/
theorem ext_isHeld {k k' : Keypad} (hheld : ∀ n, n.toNat < 16 → k.isHeld n = k'.isHeld n)
    (hwaiting : k.waiting = k'.waiting) (hpending : k.pending = k'.pending) : k = k' := by
  obtain ⟨held, waiting, pending⟩ := k
  obtain ⟨held', waiting', pending'⟩ := k'
  have hvector : held = held' := by
    apply Vector.ext
    intro n hn
    have hsmall : (UInt8.ofNat n).toNat = n :=
      UInt8.toNat_ofNat_of_lt' (Nat.lt_trans hn (by decide))
    have hkey := hheld (UInt8.ofNat n) (by omega)
    unfold isHeld at hkey
    simpa only [hsmall, hn, ↓reduceDIte] using hkey
  cases hvector
  cases hwaiting
  cases hpending
  rfl

end Keypad

namespace KeyOrder

theorem lt_sixteen (order : KeyOrder) {key : HostKey × UInt8} (h : key ∈ order.keys) :
    key.2.toNat < 16 := by
  have hall : ∀ key ∈ HostKey.layout, key.2.toNat < 16 := by decide
  exact hall key (order.perm.mem_iff.mp h)

/-- Each key of the keypad has its place. -/
theorem exists_mem (order : KeyOrder) {n : UInt8} (h : n.toNat < 16) :
    ∃ key ∈ order.keys, key.2 = n := by
  have hall : ∀ n : Fin 16, ∃ key ∈ HostKey.layout, key.2.toNat = n.val := by decide
  obtain ⟨key, hkey, hn⟩ := hall ⟨n.toNat, h⟩
  exact ⟨key, order.perm.mem_iff.mpr hkey, UInt8.toNat_inj.mp hn⟩

theorem nodup (order : KeyOrder) : (order.keys.map Prod.snd).Nodup := by
  have hlayout : (HostKey.layout.map Prod.snd).Nodup := by decide
  exact (order.perm.map Prod.snd).nodup_iff.mpr hlayout

end KeyOrder

/-- The event, with its keys in another order. -/
def Event.inOrder (order : KeyOrder) : Event → Event
  | .batch now _ input => .batch now order input
  | .redraw failure => .redraw failure
  | .other => .other

namespace Interpreter

theorem keypadAfter_append (k : Keypad) (xs ys : List Operation) :
    keypadAfter k (xs ++ ys) = keypadAfter (keypadAfter k xs) ys := List.foldl_append

theorem waiting_keypadAfter (k : Keypad) (ops : List Operation) :
    (keypadAfter k ops).waiting = k.waiting := by
  induction ops generalizing k with
  | nil => rfl
  | cons op ops ih => exact (ih (op.onKeypad k)).trans (waiting_onKeypad op k)

theorem pending_keypadAfter_idle {k : Keypad} (h : k.waiting = false) (ops : List Operation) :
    (keypadAfter k ops).pending = k.pending := by
  induction ops generalizing k with
  | nil => rfl
  | cons op ops ih =>
    have hnext : (op.onKeypad k).waiting = false := (waiting_onKeypad op k).trans h
    exact (ih hnext).trans (pending_onKeypad_idle h op)

end Interpreter

namespace Input

/-- The keys of the keypad that went down, as an order has them. -/
def presses (input : Input) (order : List (HostKey × UInt8)) : List UInt8 :=
  (order.filter fun key => input.pressed.contains key.1).map Prod.snd

theorem filterMap_onKey (input : Input) (order : KeyOrder) :
    (order.keys.flatMap input.onKey).filterMap Operation.key? = input.presses order.keys := by
  have hlt : ∀ key ∈ order.keys, key.2.toNat < Keypad.keyCount := fun _ => order.lt_sixteen
  unfold presses
  generalize order.keys = keys at hlt
  induction keys with
  | nil => rfl
  | cons key keys ih =>
    obtain ⟨hkey, hkeys⟩ := List.forall_mem_cons.mp hlt
    rw [List.flatMap_cons, List.filterMap_append, ih hkeys, List.filter_cons]
    cases hpressed : input.pressed.contains key.1 with
    | false =>
      have hkeys : (input.onKey key).filterMap Operation.key? = [] := by
        rw [onKey, hpressed]
        rfl
      rw [hkeys, List.nil_append, if_neg Bool.false_ne_true]
    | true =>
      have hkeys : (input.onKey key).filterMap Operation.key? = [key.2] := by
        rw [onKey, hpressed]
        simp only [↓reduceIte, List.filterMap_cons, List.filterMap_nil, Operation.key?, hkey]
      rw [hkeys, List.singleton_append, if_pos rfl, List.map_cons]

theorem nodup_presses (input : Input) (order : KeyOrder) : (input.presses order.keys).Nodup :=
  order.nodup.sublist (List.filter_sublist.map Prod.snd)

theorem presses_perm (input : Input) (order order' : KeyOrder) :
    (input.presses order.keys).Perm (input.presses order'.keys) :=
  ((order.perm.trans order'.perm.symm).filter _).map Prod.snd

theorem length_presses (input : Input) (order : KeyOrder) :
    (input.presses order.keys).length = (input.presses HostKey.layout).length :=
  (input.presses_perm order .asLaidOut).length_eq

theorem presses_backwards (input : Input) :
    input.presses KeyOrder.backwards.keys = (input.presses KeyOrder.asLaidOut.keys).reverse := by
  simp only [presses, KeyOrder.backwards, KeyOrder.asLaidOut, List.filter_reverse, List.map_reverse]

theorem presses_eq_of_length_le {input : Input} {order : KeyOrder}
    (h : (input.presses order.keys).length ≤ 1) (order' : KeyOrder) :
    input.presses order'.keys = input.presses order.keys := by
  have hperm := input.presses_perm order' order
  match hpresses : input.presses order.keys, h with
  | [], _ =>
    rw [hpresses] at hperm
    exact hperm.eq_nil
  | [key], _ =>
    rw [hpresses] at hperm
    exact hperm.eq_singleton

theorem isHeld_onKey (input : Input) (k : Keypad) {key : HostKey × UInt8}
    (hkey : key.2.toNat < 16) (n : UInt8) :
    (keypadAfter k (input.onKey key)).isHeld n =
      if n = key.2 then input.held.contains key.1 else k.isHeld n := by
  have hheld := k.isHeld_setHeld hkey (input.held.contains key.1) n
  unfold onKey
  cases input.pressed.contains key.1 with
  | false => exact hheld
  | true => exact (Keypad.isHeld_press _ key.2 n).trans hheld

theorem isHeld_of_not_mem (input : Input) (k : Keypad) {keys : List (HostKey × UInt8)}
    (hlt : ∀ key ∈ keys, key.2.toNat < 16) {n : UInt8} (hn : n ∉ keys.map Prod.snd) :
    (keypadAfter k (keys.flatMap input.onKey)).isHeld n = k.isHeld n := by
  induction keys generalizing k with
  | nil => rfl
  | cons key keys ih =>
    obtain ⟨hkey, hkeys⟩ := List.forall_mem_cons.mp hlt
    rw [List.map_cons, List.mem_cons, not_or] at hn
    rw [List.flatMap_cons, Interpreter.keypadAfter_append, ih _ hkeys hn.2,
      input.isHeld_onKey k hkey, if_neg hn.1]

/-- Whatever was held before, the keypad has the keys down that the host has. -/
theorem isHeld_of_mem (input : Input) (k : Keypad) {keys : List (HostKey × UInt8)}
    (hlt : ∀ key ∈ keys, key.2.toNat < 16) (hnodup : (keys.map Prod.snd).Nodup)
    {key : HostKey × UInt8} (hmem : key ∈ keys) :
    (keypadAfter k (keys.flatMap input.onKey)).isHeld key.2 = input.held.contains key.1 := by
  induction keys generalizing k with
  | nil => cases hmem
  | cons first keys ih =>
    obtain ⟨hfirst, hkeys⟩ := List.forall_mem_cons.mp hlt
    obtain ⟨hnew, hrest⟩ := List.nodup_cons.mp hnodup
    rw [List.flatMap_cons, Interpreter.keypadAfter_append]
    rcases List.mem_cons.mp hmem with rfl | hmem
    · rw [input.isHeld_of_not_mem _ hkeys hnew, input.isHeld_onKey k hfirst, if_pos rfl]
    · exact ih _ hkeys hrest hmem

theorem isHeld_eq (input : Input) (k : Keypad) (order order' : KeyOrder) {n : UInt8}
    (hn : n.toNat < 16) :
    (keypadAfter k (order.keys.flatMap input.onKey)).isHeld n =
      (keypadAfter k (order'.keys.flatMap input.onKey)).isHeld n := by
  obtain ⟨key, hkey, rfl⟩ := order.exists_mem hn
  have hkey' : key ∈ order'.keys := (order.perm.trans order'.perm.symm).mem_iff.mp hkey
  rw [input.isHeld_of_mem k (fun _ => order.lt_sixteen) order.nodup hkey,
    input.isHeld_of_mem k (fun _ => order'.lt_sixteen) order'.nodup hkey']

/-- Of the keys pressed during a wait the one visited last is kept. -/
theorem pending_eq (input : Input) {k : Keypad} (h : k.waiting = true) (order : KeyOrder) :
    (keypadAfter k (order.keys.flatMap input.onKey)).pending =
      (input.presses order.keys).getLast?.or k.pending := by
  rw [Interpreter.pending_keypadAfter h, input.filterMap_onKey]

end Input

namespace Session

/-- The keys of the keypad concern nothing but the keypad. -/
theorem enterKeys_keypad (input : Input) (keys : List (HostKey × UInt8)) (i : Interpreter) :
    enterKeys input keys i = { i with
      devices := { i.devices with
        keypad := keypadAfter i.devices.keypad (keys.flatMap input.onKey) } } := by
  induction keys generalizing i with
  | nil => rfl
  | cons key keys ih =>
    have hkey : enterKey input i key = { i with
        devices := { i.devices with
          keypad := keypadAfter i.devices.keypad (input.onKey key) } } := by
      unfold enterKey Input.onKey
      cases input.pressed.contains key.1 <;> rfl
    rw [List.flatMap_cons, Interpreter.keypadAfter_append]
    exact (ih _).trans (by rw [hkey])

theorem enterKeys_eq_of_presses {input : Input} {i : Interpreter} {order : KeyOrder}
    (h : i.devices.keypad.waiting = true → (input.presses order.keys).length ≤ 1)
    (order' : KeyOrder) : enterKeys input order'.keys i = enterKeys input order.keys i := by
  have hkeypad : keypadAfter i.devices.keypad (order'.keys.flatMap input.onKey) =
      keypadAfter i.devices.keypad (order.keys.flatMap input.onKey) := by
    apply Keypad.ext_isHeld
    · intro n hn
      exact input.isHeld_eq _ order' order hn
    · rw [Interpreter.waiting_keypadAfter, Interpreter.waiting_keypadAfter]
    · cases hwaiting : i.devices.keypad.waiting with
      | false => simp only [Interpreter.pending_keypadAfter_idle hwaiting]
      | true =>
        rw [input.pending_eq hwaiting, input.pending_eq hwaiting,
          Input.presses_eq_of_length_le (h hwaiting) order']
  rw [enterKeys_keypad, enterKeys_keypad, hkeypad]

/-- With two presses during a wait the keys visited backwards leave another one to end it. -/
theorem length_presses_le_of_backwards {input : Input} {i : Interpreter}
    (hwaiting : i.devices.keypad.waiting = true)
    (h : enterKeys input KeyOrder.backwards.keys i = enterKeys input KeyOrder.asLaidOut.keys i) :
    (input.presses KeyOrder.asLaidOut.keys).length ≤ 1 := by
  have hpending := congrArg (fun i => i.devices.keypad.pending) h
  simp only [enterKeys_keypad, input.pending_eq hwaiting, input.presses_backwards,
    List.getLast?_reverse] at hpending
  have hnodup := input.nodup_presses KeyOrder.asLaidOut
  match input.presses KeyOrder.asLaidOut.keys, hpending, hnodup with
  | [], _, _ => exact Nat.zero_le 1
  | [_], _, _ => exact Nat.le_refl 1
  | key :: next :: rest, hpending, hnodup =>
    have hlast : (next :: rest).getLast? = some key := by
      simpa [List.getLast?_cons] using hpending.symm
    have hmem : key ∈ next :: rest := List.mem_of_getLast? hlast
    exact absurd hmem (List.nodup_cons.mp hnodup).1

/-- The program waits for a key, once the keys beside the keypad have been handled, and more than
one key of the keypad was pressed. -/
def Rivals (s : Session) : Event → Prop
  | .batch _ _ input => input.ends = false ∧
      (control input s.interpreter).2.devices.keypad.waiting = true ∧
      1 < (input.presses HostKey.layout).length
  | .redraw _ | .other => False

instance decidableRivals (s : Session) : (event : Event) → Decidable (s.Rivals event)
  | .batch _ _ _ => inferInstanceAs (Decidable (_ ∧ _ ∧ _))
  | .redraw _ | .other => inferInstanceAs (Decidable False)

theorem handle_inOrder {s : Session} {event : Event} (h : ¬ s.Rivals event) (order : KeyOrder) :
    s.handle (event.inOrder order) = s.handle event := by
  cases event with
  | redraw failure => rfl
  | other => rfl
  | batch now own input =>
    cases hends : input.ends with
    | true =>
      have hclose : (input.pressed.contains .escape || input.quit) = true := hends
      simp only [Event.inOrder, handle, batch, if_pos hclose]
    | false =>
      have hkeys : enterKeys input order.keys (control input s.interpreter).2 =
          enterKeys input own.keys (control input s.interpreter).2 := by
        apply enterKeys_eq_of_presses
        intro hwaiting
        rw [input.length_presses own]
        exact Nat.le_of_not_lt fun hlt => h ⟨hends, hwaiting, hlt⟩
      simp only [Event.inOrder, handle, batch, hkeys]

theorem handleAll_inOrder {s : Session} (hopen : s.waiting ≠ .closed)
    {script : List (KeyOrder × Event)}
    (h : ∀ m ∈ s.met (script.map Prod.snd), ¬ m.1.Rivals m.2) :
    s.handleAll (script.map fun m => m.2.inOrder m.1) = s.handleAll (script.map Prod.snd) := by
  induction script generalizing s with
  | nil => rfl
  | cons first rest ih =>
    obtain ⟨order, event⟩ := first
    have hevent : ¬ s.Rivals event := by
      refine h (s, event) ?_
      rw [List.map_cons, met, if_neg hopen]
      exact List.mem_cons_self
    rw [List.map_cons, List.map_cons, handleAll, handleAll, handle_inOrder hevent]
    cases hhandle : s.handle event with
    | error e => rfl
    | ok answer =>
      obtain ⟨reaction, s'⟩ := answer
      rw [List.map_cons, (run_ok hopen hhandle _).1] at h
      by_cases hnext : s'.waiting = .closed
      · simp only [bind, Except.bind, if_pos hnext]
      · have hrest := ih hnext fun m hm => h m (List.mem_cons_of_mem _ hm)
        simp only [bind, Except.bind, if_neg hnext, hrest]

/-- In whatever order the keys of the keypad are visited they leave the same interpreter, unless it
waits for a key and two are pressed at once. A session that goes on without such an event can be
repeated, event by event, whichever order its keys come up in each time. -/
theorem key_order_matters_to_rivals_only (s : Session) :
    (∀ input : Input,
      (∀ order : KeyOrder, enterKeys input order.keys s.interpreter =
        enterKeys input HostKey.layout s.interpreter) ↔
          (s.interpreter.devices.keypad.waiting = true →
            (input.presses HostKey.layout).length ≤ 1)) ∧
    ∀ script : List (KeyOrder × Event), s.waiting ≠ .closed →
      (∀ m ∈ s.met (script.map Prod.snd), ¬ m.1.Rivals m.2) →
      s.handleAll (script.map fun m => m.2.inOrder m.1) = s.handleAll (script.map Prod.snd) := by
  refine ⟨?_, fun script hopen => handleAll_inOrder hopen⟩
  intro input
  constructor
  · intro h hwaiting
    exact length_presses_le_of_backwards hwaiting (h .backwards)
  · intro h order
    have hkeys : enterKeys input order.keys s.interpreter =
        enterKeys input KeyOrder.asLaidOut.keys s.interpreter := enterKeys_eq_of_presses h order
    exact hkeys

/-- The program takes the Q, and no other key goes down while it waits. The W and the E go down
together once it waits no more. -/
theorem lone_press_ends_wait_in_any_order :
    let o : RunOptions := ⟨none, 60, 60, false, false, none, false⟩
    let s := start ((Interpreter.new .modern (.ofSeed 7)).after [.load [0xF0, 0x0A]]) o 0
    let together : Input := ⟨[.w, .e], [.w, .e], false⟩
    let script : List (KeyOrder × Event) := [
      (.backwards, .batch 0 .asLaidOut together),
      (.asLaidOut, .batch 5000000 .backwards ⟨[.q], [.q, .w], false⟩),
      (.backwards, .batch 20000000 .asLaidOut ⟨[], [.w], false⟩),
      (.backwards, .batch 30000000 .asLaidOut together)]
    s.waiting ≠ .closed ∧ (∀ m ∈ s.met (script.map Prod.snd), ¬ m.1.Rivals m.2) ∧
      s.handleAll (script.map fun m => m.2.inOrder m.1) = s.handleAll (script.map Prod.snd) ∧
      (s.run (script.map Prod.snd)).map (fun s => s.interpreter.machine.register 0) = .ok 4 := by
  intro o s together script
  have hopen : s.waiting ≠ .closed := nofun
  have hlone : ∀ m ∈ s.met (script.map Prod.snd), ¬ m.1.Rivals m.2 := by decide +kernel
  have hregister :
      (s.run (script.map Prod.snd)).map (fun s => s.interpreter.machine.register 0) = .ok 4 := by
    decide +kernel
  exact ⟨hopen, hlone, (key_order_matters_to_rivals_only s).2 script hopen hlone, hregister⟩

/-- Keys 1 and 2 are pressed at once while the program waits: it goes on with the 2, or with the 1
if the keys are visited backwards. -/
theorem rival_presses_race :
    let i := (Interpreter.new .modern (.ofSeed 0)).after [.load [0xF0, 0x0A], .cycle]
    let input : Input := ⟨[.one, .two], [.one, .two], false⟩
    let forwards := enterKeys input KeyOrder.asLaidOut.keys i
    let backwards := enterKeys input KeyOrder.backwards.keys i
    i.Reachable ∧ forwards ≠ backwards ∧ forwards.cycle.machine.register 0 = 2 ∧
      backwards.cycle.machine.register 0 = 1 := by
  intro i input forwards backwards
  obtain ⟨htwo, hone⟩ : forwards.cycle.machine.register 0 = 2 ∧
      backwards.cycle.machine.register 0 = 1 := by
    decide +kernel
  refine ⟨⟨_, _, _, rfl⟩, ?_, htwo, hone⟩
  intro h
  rw [h, hone] at htwo
  exact absurd htwo (by decide)

end Session

end Chip8
