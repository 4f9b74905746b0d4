import InfixArith.Proofs.Reading.Trim
import InfixArith.Proofs.Text.Bytes
import InfixArith.Session

/-!
# Session — a session site by site

`Session.script` lists what a session does, and `Sink.perform` carries the list out until an effect
fails.  Here a session is a program over its output (`Shell.session`): it reads a line, answers it and
goes on, and each of its writes and flushes may fail where it stands, which ends the program there.

* `Shell.command_eq`, `Shell.loop_eq`: line by line the program does what is listed.
* `Shell.perform_session`: on every output the two come to the same.
-/

namespace InfixArith

/-- What an output has taken, and the bytes that it still takes. -/
structure Output where
  written : List UInt8
  flushes : Nat
  events : List Event
  room : Option Nat

namespace Output

/-- What becomes of an output on which `p` is carried out after all else. -/
def after (o : Output) (p : Performed) : EStateM.Result Failure Output Unit :=
  let o : Output := ⟨o.written ++ p.written, o.flushes + p.flushes, o.events ++ p.events, p.room⟩
  match p.failure with
  | none   => .ok () o
  | some f => .error f o

variable (o : Output) (p : Performed)

theorem after_write (bs : List UInt8) (room : Option Nat) :
    ({ o with written := o.written ++ bs, room } : Output).after p =
      o.after { p with written := bs ++ p.written } := by
  simp only [after, List.append_assoc]

theorem after_flush :
    ({ o with flushes := o.flushes + 1 } : Output).after p =
      o.after { p with flushes := p.flushes + 1 } := by
  simp only [after, Nat.add_right_comm, Nat.add_assoc]

theorem after_record (e : Event) :
    ({ o with events := o.events ++ [e] } : Output).after p =
      o.after { p with events := e :: p.events } := by
  simp only [after, List.append_assoc, List.singleton_append]

end Output

/-- A program over an output, which the first failure ends. -/
abbrev Shell := EStateM Failure Output

namespace Shell

section

variable (sink : Sink)

/-- Writes a text; of one that does not fit, the bytes that fit. -/
def write (s : List Char) : Shell Unit := do
  let o ← get
  let bs := Text.bytes s
  match o.room with
  | none   => set { o with written := o.written ++ bs }
  | some n =>
    if bs.length ≤ n then
      set { o with written := o.written ++ bs, room := some (n - bs.length) }
    else do
      set { o with written := o.written ++ bs.take n, room := some 0 }
      throw (.io sink.writeFault)

def flush : Shell Unit := do
  let o ← get
  set { o with flushes := o.flushes + 1 }
  if sink.badFlush = some o.flushes then throw (.io sink.flushFault) else pure ()

def record (e : Event) : Shell Unit := modify fun o => { o with events := o.events ++ [e] }

/-- Writes a text, and then a line feed. -/
def writeLine (s : List Char) : Shell Unit := do
  write sink s
  write sink ['\n']

/-- Reads an expression and writes its rounded value, or what is wrong with it. -/
def reply (figures : Nat) (line : List Char) : Shell Unit := do
  record (.evaluating line)
  let reading := Answer.reading line
  forM reading.events record
  match reading.result with
  | .ok e    => writeLine sink (Answer.ofExpr figures e .value).text
  | .error e => writeLine sink e.message.toList

/-- Runs one line. -/
def command (figures : Nat) (line : List Char) : Shell Action :=
  let line := Text.trim line
  let word := Text.firstWord line
  if word = [] then pure .proceed
  else if word = exitWord then do
    record .exiting
    pure .leave
  else do
    reply sink figures line
    pure .proceed

def promptUser (prompting : Bool) : Shell Unit :=
  if prompting then do
    write sink prompt
    flush sink
  else pure ()

/-- The text of a line, where the line can be read to its end and is a text. -/
def decode (readFault : Option String) (line : List UInt8) : Shell (List Char) :=
  match readFault, Text.terminated line with
  | some cause, false => throw (.io cause)
  | _, _ =>
    match Text.ofBytes? line with
    | none   => throw Session.undecodable
    | some s => pure s

/-- Runs line after line, until one leaves the session or none is left. -/
def loop (prompting : Bool) (figures : Nat) (readFault : Option String) :
    List (List UInt8) → Shell Unit
  | [] => do
    promptUser sink prompting
    match readFault with
    | some cause => throw (.io cause)
    | none       => record .inputEnded
  | line :: rest => do
    promptUser sink prompting
    let s ← decode readFault line
    match ← command sink figures s with
    | .leave   => pure ()
    | .proceed => loop prompting figures readFault rest

/-- A session over the lines of an input. -/
def session (prompting : Bool) (figures : Nat) (readFault : Option String) (input : List UInt8) :
    Shell Unit :=
  loop sink prompting figures readFault (Text.lines input)

/-- What a program comes to on an output that nothing has been done on. -/
def perform (program : Shell Unit) : Performed :=
  match program.run ⟨[], 0, [], sink.room⟩ with
  | .ok () o   => ⟨o.written, o.flushes, o.events, o.room, none⟩
  | .error f o => ⟨o.written, o.flushes, o.events, o.room, some f⟩

/-- An effect at its site. -/
def effect : Effect → Shell Unit
  | .write s  => write sink s
  | .flush    => flush sink
  | .record e => record e

/-- Carries out effects in order. -/
def carryOut (es : List Effect) : Shell Unit := forM es (effect sink)

/-- Carries out the effects of a script, and ends as it does. -/
def ofScript (s : Script) : Shell Unit := do
  carryOut sink s.effects
  match s.failure with
  | none   => pure ()
  | some f => throw f

end

variable {sink : Sink}

/-! ### Effects at their sites -/

theorem run_write (s : List Char) (o : Output) :
    (write sink s).run o =
      let bs := Text.bytes s
      match o.room with
      | none   => .ok () { o with written := o.written ++ bs }
      | some n =>
        if bs.length ≤ n then
          .ok () { o with written := o.written ++ bs, room := some (n - bs.length) }
        else
          .error (.io sink.writeFault) { o with written := o.written ++ bs.take n, room := some 0 } := by
  obtain ⟨written, flushes, events, _ | n⟩ := o
  · rfl
  · simp only [write, EStateM.run_bind, EStateM.run_get]
    split <;> rfl

theorem run_flush (o : Output) :
    (flush sink).run o =
      if sink.badFlush = some o.flushes then
        .error (.io sink.flushFault) { o with flushes := o.flushes + 1 }
      else .ok () { o with flushes := o.flushes + 1 } := by
  simp only [flush, EStateM.run_bind, EStateM.run_get, EStateM.run_set]
  split <;> rfl

theorem run_record (e : Event) (o : Output) :
    (record e).run o = .ok () { o with events := o.events ++ [e] } := rfl

theorem carryOut_cons (e : Effect) (es : List Effect) :
    carryOut sink (e :: es) = (do effect sink e; carryOut sink es) := List.forM_cons

/-- Effects at their sites come to what they come to as a list. -/
theorem run_carryOut (es : List Effect) (o : Output) :
    (carryOut sink es).run o = o.after (sink.perform o.room o.flushes es) := by
  induction es generalizing o with
  | nil => simp [carryOut, Sink.perform, Output.after, EStateM.run_pure]
  | cons e es ih =>
      rw [carryOut_cons, EStateM.run_bind]
      cases e with
      | record e =>
          rw [effect, run_record, Sink.perform, ← Output.after_record]
          exact ih _
      | flush =>
          rw [effect, run_flush, Sink.perform]
          by_cases hbad : sink.badFlush = some o.flushes
          · rw [if_pos hbad, if_pos hbad]
            simp only [Output.after, List.append_nil]
          · rw [if_neg hbad, if_neg hbad, ← Output.after_flush]
            exact ih _
      | write s =>
          obtain ⟨written, flushes, events, _ | n⟩ := o
          · rw [effect, run_write, Sink.perform, ← Output.after_write _ _ _ none]
            exact ih _
          · rw [effect, run_write, Sink.perform]
            dsimp only
            by_cases hfit : (Text.bytes s).length ≤ n
            · rw [if_pos hfit, if_pos hfit,
                ← Output.after_write _ _ _ (some (n - (Text.bytes s).length))]
              exact ih _
            · rw [if_neg hfit, if_neg hfit]
              simp only [Output.after, List.append_nil, Nat.add_zero]

/-- A script at its sites comes to what it comes to as a list. -/
theorem perform_ofScript (s : Script) : perform sink (ofScript sink s) = sink.run s := by
  rw [perform, ofScript, EStateM.run_bind, run_carryOut, Sink.run]
  simp only [Output.after, List.nil_append, Nat.zero_add]
  cases (sink.perform sink.room 0 s.effects).failure with
  | some f => rfl
  | none => cases s.failure <;> rfl

/-! ### Line by line -/

theorem carryOut_append (es es' : List Effect) :
    carryOut sink (es ++ es') = (do carryOut sink es; carryOut sink es') := List.forM_append

theorem carryOut_singleton (e : Effect) : carryOut sink [e] = effect sink e := by
  rw [carryOut_cons, carryOut, List.forM_nil, bind_pure]

theorem carryOut_records (events : List Event) :
    carryOut sink (events.map .record) = forM events record := List.forM_map

theorem ofScript_before (es : List Effect) (s : Script) :
    ofScript sink (.before es s) = (do carryOut sink es; ofScript sink s) := by
  rw [ofScript, ofScript, Script.before, carryOut_append, bind_assoc]

/-- It makes no difference whether a text is written at once or in pieces. -/
theorem write_append (s r : List Char) :
    (do write sink s; write sink r) = write sink (s ++ r) := by
  funext o
  change (write sink s >>= fun _ => write sink r).run o = (write sink (s ++ r)).run o
  rw [EStateM.run_bind, run_write, run_write (s ++ r), Text.bytes_append]
  obtain ⟨written, flushes, events, _ | n⟩ := o
  · simp only [run_write, List.append_assoc]
  · dsimp only
    rw [List.length_append]
    by_cases hfit : (Text.bytes s).length ≤ n
    · rw [if_pos hfit]
      dsimp only
      rw [run_write]
      dsimp only
      by_cases hall : (Text.bytes r).length ≤ n - (Text.bytes s).length
      · rw [if_pos hall, if_pos (by omega), List.append_assoc, Nat.sub_sub]
      · -- the first piece fits, and the room that it leaves is too small for the second
        rw [if_neg hall, if_neg (by omega), List.take_append, List.take_of_length_le hfit,
          List.append_assoc]
    · rw [if_neg hfit, if_neg (by omega), List.take_append_of_le_length (by omega)]

theorem reply_eq (figures : Nat) (line : List Char) :
    reply sink figures line = carryOut sink (Session.reply figures line) := by
  rw [Session.reply, carryOut_cons, carryOut_append, carryOut_records, carryOut_singleton, reply]
  simp only [effect, ← write_append]
  cases (Answer.reading line).result <;> rfl

/-- A line does what is listed for it. -/
theorem command_eq (figures : Nat) (line : List Char) :
    command sink figures line =
      (do carryOut sink (Session.command figures line).2
          pure (Session.command figures line).1) := by
  rw [command, Session.command, ← Text.firstWord_trim line]
  by_cases hblank : Text.firstWord (Text.trim line) = []
  · rw [if_pos hblank, if_pos hblank, carryOut, List.forM_nil, pure_bind]
  · rw [if_neg hblank, if_neg hblank]
    by_cases hexit : Text.firstWord (Text.trim line) = exitWord
    · rw [if_pos hexit, if_pos hexit, carryOut_singleton]
      rfl
    · rw [if_neg hexit, if_neg hexit, reply_eq]

theorem promptUser_eq (prompting : Bool) :
    promptUser sink prompting = carryOut sink (Session.promptEffects prompting) := by
  cases prompting with
  | false => rfl
  | true =>
      rw [Session.promptEffects, if_pos rfl, carryOut_cons, carryOut_singleton]
      rfl

/-- A line that cannot be read, or is no text, ends the session there. -/
theorem decode_bind (readFault : Option String) (line : List UInt8) {f : List Char → Shell Unit}
    {g : List Char → Script} (h : ∀ s, f s = ofScript sink (g s)) :
    decode readFault line >>= f = ofScript sink
      (match readFault, Text.terminated line with
        | some cause, false => ⟨[], some (.io cause)⟩
        | _, _ =>
          match Text.ofBytes? line with
          | none   => ⟨[], some Session.undecodable⟩
          | some s => g s) := by
  unfold decode
  split
  · rfl
  · cases Text.ofBytes? line with
    | none => rfl
    | some s => exact h s

/-- **Line by line** a session does what its script lists. -/
theorem loop_eq (prompting : Bool) (figures : Nat) (readFault : Option String)
    (ls : List (List UInt8)) :
    loop sink prompting figures readFault ls =
      ofScript sink (Session.scriptOfLines prompting figures readFault ls) := by
  induction ls with
  | nil =>
      unfold loop Session.scriptOfLines
      rw [ofScript_before, ← promptUser_eq]
      cases readFault <;> rfl
  | cons line ls ih =>
      unfold loop Session.scriptOfLines
      rw [ofScript_before, ← promptUser_eq]
      refine bind_congr fun _ => decode_bind readFault line fun s => ?_
      rw [command_eq, bind_assoc]
      rcases Session.command figures s with ⟨_ | _, es⟩
      · simp only [pure_bind, ofScript_before, ih]
      · rfl

/-- **A session at its sites comes to what its script comes to**, on every output. -/
theorem perform_session (sink : Sink) (prompting : Bool) (figures : Nat) (readFault : Option String)
    (input : List UInt8) :
    perform sink (session sink prompting figures readFault input) =
      sink.run (Session.script prompting figures readFault input) := by
  rw [session, loop_eq, perform_ofScript, Session.script]

end Shell

end InfixArith
