import Bencode.Sax.Online
import Bencode.Sax.Position

/-!
# The events account for the input

Written down one after another, the events of a run are the input up to where the run
ended, token by token. The pointers that `on_string` gets are places in that text.
-/

namespace Bencode

open LabelledMachine

/-! ## Events as text -/

def Event.text : Event → Bytes
  | .int value => encodeInt value
  | .string _ bytes => encodeString bytes
  | .listBegin => ['l'.toUInt8]
  | .listEnd => ['e'.toUInt8]
  | .dictBegin => ['d'.toUInt8]
  | .dictEnd => ['e'.toUInt8]

def transcript (es : List Event) : Bytes := es.flatMap Event.text

theorem transcript_snoc (es : List Event) (e : Event) :
    transcript (es ++ [e]) = transcript es ++ e.text := by
  simp [transcript]

theorem Reads.text {limit pos : Nat} {stack : List OpenScope} {tok : Bytes} {e : Event}
    {next : List OpenScope × Option Tree} (h : Reads limit stack pos tok e next) : tok = e.text := by
  cases h with
  | int await i => rfl
  | string await bytes fits => rfl
  | listBegin await room => rfl
  | dictBegin await room => rfl
  | key done below k order fits => rfl
  | listEnd done below => rfl
  | dictEnd done below => rfl

/-- The payload of an event behind a text of length `pos` ends where the event's own text does. -/
theorem Reads.located {limit pos off : Nat} {stack : List OpenScope} {tok bytes : Bytes} {e : Event}
    {next : List OpenScope × Option Tree} (h : Reads limit stack pos tok e next)
    (string : e = .string off bytes) : off + bytes.length = pos + tok.length := by
  have hplace : ∀ payload, stringEvent pos payload = .string off bytes →
      off + bytes.length = pos + (encodeString payload).length := by
    intro payload heq
    simp only [stringEvent, Event.string.injEq] at heq
    obtain ⟨rfl, rfl⟩ := heq
    simp only [encodeString, List.length_append, List.length_cons]
    omega
  cases h with
  | string await payload fits => exact hplace payload string
  | key done below k order fits => exact hplace k string
  | int => cases string
  | listBegin => cases string
  | dictBegin => cases string
  | listEnd => cases string
  | dictEnd => cases string

/-! ## Runs -/

/-- The strings of the events lie in the text of the events. -/
def InPlace (es : List Event) : Prop :=
  ∀ pre off bytes post, es = pre ++ .string off bytes :: post →
    off + bytes.length = (transcript (pre ++ [.string off bytes])).length

theorem InPlace.snoc {es : List Event} {e : Event} (h : InPlace es)
    (last : ∀ off bytes, e = .string off bytes →
      off + bytes.length = (transcript (es ++ [e])).length) : InPlace (es ++ [e]) := by
  intro pre off bytes post split
  rcases List.eq_nil_or_concat post with rfl | ⟨post, f, rfl⟩
  · obtain ⟨rfl, heq⟩ := List.append_inj' split rfl
    obtain rfl := List.singleton_inj.mp heq
    exact last off bytes rfl
  · rw [List.concat_eq_append, ← List.cons_append, ← List.append_assoc] at split
    exact h pre off bytes post (List.append_inj' split rfl).1

structure Accounts (w : Bytes) (es : List Event) (c : Config) : Prop where
  text : w = transcript es ++ c.rest
  pos : c.pos = (transcript es).length
  located : InPlace es

theorem reaches_accounts {limit : Nat} {w : Bytes} {es : List Event} {c : Config}
    (run : Reaches (scanStep limit) (.start w) es c) : Accounts w es c := by
  refine run.invariant ⟨rfl, rfl, ?_⟩ ?_
  · intro pre off bytes post split
    simp at split
  · intro hist b e b' before head
    obtain ⟨hopen, tok, rest, next, split, read, rfl⟩ := scanStep_emit head
    have htok := read.text
    have hpos : (b.after tok rest next).pos = (transcript (hist ++ [e])).length := by
      show b.pos + tok.length = _
      rw [transcript_snoc, List.length_append, before.pos, htok]
    refine ⟨?_, hpos, before.located.snoc ?_⟩
    · show w = transcript (hist ++ [e]) ++ rest
      rw [transcript_snoc, ← htok, List.append_assoc, ← split]
      exact before.text
    · intro off bytes string
      rw [← hpos]
      exact read.located string

theorem InPlace.payload {w rest : Bytes} {es : List Event} (h : InPlace es)
    (text : w = transcript es ++ rest) {pre post : List Event} {off : Nat} {bytes : Bytes}
    (split : es = pre ++ .string off bytes :: post) : bytes <+: w.drop off := by
  have hend := h pre off bytes post split
  have hpre : transcript (pre ++ [.string off bytes]) =
      transcript pre ++ formatNat bytes.length ++ [':'.toUInt8] ++ bytes := by
    rw [transcript_snoc, Event.text, encodeString]
    simp
  have hw : w = transcript pre ++ formatNat bytes.length ++ [':'.toUInt8] ++
      (bytes ++ (transcript post ++ rest)) := by
    have hes : transcript es = transcript (pre ++ [.string off bytes]) ++ transcript post := by
      rw [split]
      simp [transcript]
    rw [text, hes, hpre]
    simp only [List.append_assoc]
  rw [hpre, List.length_append] at hend
  rw [hw, show off = (transcript pre ++ formatNat bytes.length ++ [':'.toUInt8]).length by omega,
    List.drop_left]
  exact List.prefix_append _ _

/-- The input is what the events say, and then, when the parse fails, the bytes of a flaw, behind
which the offset of the error lies. A string of the events is found at its pointer. -/
theorem bencodeParseSax_transcribed (w : Bytes) (maxDepth : Nat) :
    ∃ st off es, Recorded w maxDepth st off es ∧
      ((st = .ok ∧ transcript es = w.take off ∧ off = (transcript es).length) ∨
        ∃ c tok rest, w = transcript es ++ tok ++ rest ∧
          Legal (effectiveDepth maxDepth) w c ∧ c.rest = tok ++ rest ∧
          Flaw (effectiveDepth maxDepth) c.stack tok rest st ∧
          off = (transcript es ++ tok).length) ∧
      ∀ pre p bytes post, es = pre ++ .string p bytes :: post →
        bytes <+: w.drop p ∧ p + bytes.length = (transcript (pre ++ [.string p bytes])).length := by
  obtain ⟨st, off, es, hrun⟩ := recorded_exists w maxDepth
  obtain ⟨c, run, stop⟩ := recorded_iff.mp hrun
  have haccounts := reaches_accounts run
  refine ⟨st, off, es, hrun, ?_, fun pre p bytes post split =>
    ⟨haccounts.located.payload haccounts.text split, haccounts.located pre p bytes post split⟩⟩
  cases hopen : c.result with
  | some t =>
      simp only [scanStep, hopen] at stop
      cases stop
      have hpos := haccounts.pos
      have htext := haccounts.text
      refine .inl ⟨rfl, ?_, hpos⟩
      rw [hpos]
      conv_rhs => rw [htext]
      exact List.take_left.symm
  | none =>
      obtain ⟨tok, rest, split, flaw⟩ := (scanStep_blocked hopen stop).flaw
      have hstop := flaw.stops hopen split
      rw [stop] at hstop
      have hoff : off = c.pos + tok.length := by
        cases hstop
        rfl
      refine .inr ⟨c, tok, rest, ?_, legal_of_reaches run, split, flaw, ?_⟩
      · rw [List.append_assoc, ← split]
        exact haccounts.text
      · rw [hoff, haccounts.pos, List.length_append]

end Bencode
