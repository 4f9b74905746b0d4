import InfixArith.Proofs.Session.Sites

/-!
# Session — what is written

On an output that never fails everything is written and a script ends as it would by itself
(`run_endless`).  An output with room for `n` bytes gets the first `n` of these, and if there are more
of them the session ends there with the failure of the output (`run_room`): nothing is done after the
write that did not fit.

The one is compared with the other effect by effect (`Performed.Cuts`); and what comes of the effects
of a session is what comes of the session itself, each of its writes failing where it stands
(`Shell.perform_session`).
-/

namespace InfixArith

/-- The text that an effect writes. -/
def Effect.text : Effect → List Char
  | .write s  => s
  | .flush    => []
  | .record _ => []

/-- `cut` is what becomes of `full` on an output with room for `n` bytes that then fails with
`cause`: the bytes that fit, the events up to there, and the failure if not everything fits. -/
structure Performed.Cuts (n : Nat) (cause : String) (full cut : Performed) : Prop where
  written : cut.written = full.written.take n
  failure : cut.failure = if full.written.length ≤ n then full.failure else some (.io cause)
  events : cut.events <+: full.events
  whole : full.written.length ≤ n → cut.events = full.events ∧ cut.flushes = full.flushes

namespace Performed.Cuts

variable {n : Nat} {cause : String} {full cut : Performed} {bs : List UInt8}

/-- Nothing is done: there is nothing to cut. -/
theorem nothing : Cuts n cause ⟨[], 0, [], none, none⟩ ⟨[], 0, [], some n, none⟩ where
  written := List.take_nil.symm
  failure := (if_pos (Nat.zero_le n)).symm
  events := List.prefix_refl []
  whole := fun _ => ⟨rfl, rfl⟩

theorem record (h : Cuts n cause full cut) (e : Event) :
    Cuts n cause { full with events := e :: full.events } { cut with events := e :: cut.events } where
  written := h.written
  failure := h.failure
  events := (List.prefix_cons_inj e).mpr h.events
  whole := fun hfit => ⟨congrArg (e :: ·) (h.whole hfit).1, (h.whole hfit).2⟩

theorem flush (h : Cuts n cause full cut) :
    Cuts n cause { full with flushes := full.flushes + 1 }
      { cut with flushes := cut.flushes + 1 } where
  written := h.written
  failure := h.failure
  events := h.events
  whole := fun hfit => ⟨(h.whole hfit).1, congrArg (· + 1) (h.whole hfit).2⟩

/-- What fits is written, and leaves room for what follows. -/
theorem write (h : Cuts (n - bs.length) cause full cut) (hfit : bs.length ≤ n) :
    Cuts n cause { full with written := bs ++ full.written }
      { cut with written := bs ++ cut.written } := by
  have hlength : (bs ++ full.written).length ≤ n ↔ full.written.length ≤ n - bs.length := by
    rw [List.length_append]
    omega
  refine ⟨?_, ?_, h.events, fun hall => h.whole (hlength.mp hall)⟩
  · rw [List.take_append, List.take_of_length_le hfit, ← h.written]
  · simp only [hlength]
    exact h.failure

/-- What does not fit is cut, and nothing follows it. -/
theorem overflow (hover : n < bs.length) (full : Performed) :
    Cuts n cause { full with written := bs ++ full.written }
      ⟨bs.take n, 0, [], some 0, some (.io cause)⟩ := by
  have hlong : ¬ (bs ++ full.written).length ≤ n := by
    rw [List.length_append]
    omega
  refine ⟨?_, (if_neg hlong).symm, List.nil_prefix, fun hall => absurd hall hlong⟩
  rw [List.take_append_of_le_length (Nat.le_of_lt hover)]

end Performed.Cuts

namespace Sink

/-! ### An output that never fails -/

theorem perform_endless (k : Nat) (es : List Effect) :
    (perform {} none k es).written = Text.bytes (es.flatMap Effect.text) ∧
      (perform {} none k es).failure = none := by
  induction es generalizing k with
  | nil => exact ⟨rfl, rfl⟩
  | cons e es ih =>
      cases e with
      | record e => exact ih k
      | flush => exact ih (k + 1)
      | write s =>
          obtain ⟨hwritten, hfailure⟩ := ih k
          refine ⟨?_, hfailure⟩
          rw [List.flatMap_cons, Text.bytes_append, ← hwritten]
          rfl

/-- An output that never fails gets all that is written, and the script ends by itself. -/
theorem run_endless (s : Script) :
    (run {} s).written = Text.bytes (s.effects.flatMap Effect.text) ∧
      (run {} s).failure = s.failure := by
  obtain ⟨hwritten, hfailure⟩ := perform_endless 0 s.effects
  refine ⟨hwritten, ?_⟩
  rw [run]
  dsimp only
  rw [hfailure, Option.none_or]

/-! ### An output with room for some bytes -/

/-- Effect by effect, with the room that is left. -/
theorem perform_cuts (n : Nat) (cause : String) (k : Nat) (es : List Effect) :
    Performed.Cuts n cause (perform {} none k es)
      (perform { room := some n, writeFault := cause } (some n) k es) := by
  suffices h : ∀ (sink : Sink) (m : Nat), sink.badFlush = none → sink.writeFault = cause →
      Performed.Cuts m cause (perform {} none k es) (perform sink (some m) k es) from
    h _ n rfl rfl
  intro sink m hflush hcause
  induction es generalizing m k with
  | nil => exact .nothing
  | cons e es ih =>
      cases e with
      | record e => exact (ih k m).record e
      | flush =>
          have hgood : (none : Option Nat) ≠ some k := (Option.some_ne_none k).symm
          rw [perform, perform, if_neg hgood, if_neg (hflush ▸ hgood)]
          exact (ih (k + 1) m).flush
      | write s =>
          rw [perform, perform]
          dsimp only
          split
          · next hfit => exact (ih k (m - (Text.bytes s).length)).write hfit
          · next hover =>
            rw [hcause]
            exact .overflow (Nat.lt_of_not_le hover) _

end Sink

namespace Session

/-- **A failing output cuts a session off and does nothing else.**  On an output that takes `n` bytes
and then fails, a session writes the first `n` bytes of what it writes on an output that never fails.
If these are all, it ends as it does there; otherwise it ends with the failure of the output, and what
it has done until then is the beginning of what it does there.  On every output this is what comes of
the session whose writes and flushes fail one by one where they stand. -/
theorem run_room (prompting : Bool) (figures : Nat) (readFault : Option String)
    (input : List UInt8) (n : Nat) (cause : String) :
    let script := script prompting figures readFault input
    Performed.Cuts n cause (Sink.run {} script)
        (Sink.run { room := some n, writeFault := cause } script) ∧
      ∀ sink : Sink, Shell.perform sink (Shell.session sink prompting figures readFault input) =
        Sink.run sink script := by
  intro script
  refine ⟨?_, fun sink => Shell.perform_session sink prompting figures readFault input⟩
  have h := Sink.perform_cuts n cause 0 script.effects
  obtain ⟨-, hfull⟩ := Sink.perform_endless 0 script.effects
  refine ⟨h.written, ?_, h.events, h.whole⟩
  rw [Sink.run, Sink.run]
  dsimp only
  rw [h.failure, hfull]
  split
  · rfl
  · rfl

end Session

end InfixArith
