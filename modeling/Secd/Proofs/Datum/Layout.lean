import Secd.Datum.Parser
import Secd.Proofs.Token.Layout

/-!
# Where the data of a text stand

The parser gives every datum a span from the beginning of one token to the end of another. This file
proves that all these spans are within the text, together with the span of one byte for each quote
mark. The invariant is about the state of the parser after the tokens up to some position: all that
is complete is within the text, and every open construct begins on a boundary that is no further
than that position. The token that completes a construct ends beyond it, so no span is reversed.
-/

namespace Secd

namespace Datum

mutual

/-- The spans of the datum and of its parts are within the text; so is every quote mark. -/
def Within (source : String) : Datum → Prop
  | .int _ span => span.Within source
  | .symbol _ span => span.Within source
  | .quoted d span =>
    span.Within source ∧ Span.Within ⟨span.start, span.start + 1⟩ source ∧ d.Within source
  | .list items span => span.Within source ∧ AllWithin source items
  | .dotted items tail span => span.Within source ∧ AllWithin source items ∧ tail.Within source

/-- The same for all data of a list. -/
def AllWithin (source : String) : List Datum → Prop
  | [] => True
  | d :: ds => d.Within source ∧ AllWithin source ds

end

variable {source : String}

/-- The data of a list are within the text if each of them is. -/
theorem allWithin_iff {ds : List Datum} : AllWithin source ds ↔ ∀ d ∈ ds, d.Within source := by
  induction ds with
  | nil => simp [AllWithin]
  | cons d ds ih => simp [AllWithin, ih]

/-- The span of a datum is within the text if all its spans are. -/
theorem Within.span {d : Datum} (h : d.Within source) : d.span.Within source := by
  cases d with
  | int n span => exact h
  | symbol name span => exact h
  | quoted d span => exact h.1
  | list items span => exact h.1
  | dotted items tail span => exact h.1

end Datum

/-- The construct begins on a boundary up to `position`, and its items are within the text. -/
def Construct.Within (source : String) (position : Nat) : Construct → Prop
  | .quoted start => start ≤ position ∧ Span.Within ⟨start, start + 1⟩ source
  | .list start items | .dotted start items =>
    start ≤ position ∧ OnBoundary source start ∧ ∀ d ∈ items, d.Within source

/-- A construct that begins up to a position begins up to every later one. -/
theorem Construct.Within.of_le {source : String} {position position' : Nat} {c : Construct}
    (h : c.Within source position) (hle : position ≤ position') : c.Within source position' := by
  cases c with
  | quoted start => exact ⟨Nat.le_trans h.1 hle, h.2⟩
  | list start items => exact ⟨Nat.le_trans h.1 hle, h.2⟩
  | dotted start items => exact ⟨Nat.le_trans h.1 hle, h.2⟩

namespace ParserState

/-- What the parser knows after the tokens up to `position` is within the text. -/
def Within (source : String) (position : Nat) : ParserState → Prop
  | .ready complete pending =>
    (∀ d ∈ complete, d.Within source) ∧ ∀ c ∈ pending, c.Within source position
  | .closing complete start items tail outer =>
    (∀ d ∈ complete, d.Within source) ∧ (Construct.dotted start items).Within source position ∧
      tail.Within source ∧ ∀ c ∈ outer, c.Within source position

variable {source : String}

/-- A datum that ends at the position keeps the state within the text. -/
theorem within_supply {position : Nat} {complete : List Datum} {d : Datum}
    {pending : List Construct} (hcomplete : ∀ d ∈ complete, d.Within source)
    (hd : d.Within source) (hstop : d.span.stop = position)
    (hpending : ∀ c ∈ pending, c.Within source position) :
    (supply complete d pending).Within source position := by
  induction pending generalizing d with
  | nil => exact ⟨List.forall_mem_cons.2 ⟨hd, hcomplete⟩, hpending⟩
  | cons c outer ih =>
    obtain ⟨hc, houter⟩ := List.forall_mem_cons.1 hpending
    cases c with
    | quoted start =>
      have hspan : Span.Within ⟨start, d.span.stop⟩ source :=
        .of_le (hstop ▸ hc.1) hc.2.onBoundary_start hd.span.onBoundary_stop
      exact ih ⟨hspan, hc.2, hd⟩ hstop houter
    | list start items =>
      refine ⟨hcomplete, List.forall_mem_cons.2 ⟨⟨hc.1, hc.2.1, ?_⟩, houter⟩⟩
      exact List.forall_mem_cons.2 ⟨hd, hc.2.2⟩
    | dotted start items => exact ⟨hcomplete, hc, hd, houter⟩

/-- One more token keeps the state within the text. -/
theorem within_of_step? {position : Nat} {state next : ParserState} {l : Lexeme}
    (hstate : state.Within source position) (hl : l.Proper source)
    (hle : position ≤ l.span.start) (hstep : state.step? l = some next) :
    next.Within source l.span.stop := by
  obtain ⟨token, span⟩ := l
  have hlater : position ≤ span.stop := Nat.le_trans hle hl.within.start_le_stop
  -- a list or a dotted list ends with the token: its span goes from its own beginning to there
  have hclosed {start : Nat} (hstart : start ≤ position) (hboundary : OnBoundary source start) :
      Span.Within ⟨start, span.stop⟩ source :=
    .of_le (Nat.le_trans hstart hlater) hboundary hl.within.onBoundary_stop
  cases state with
  | ready complete pending =>
    obtain ⟨hcomplete, hpending⟩ := hstate
    have hpending' : ∀ c ∈ pending, c.Within source span.stop :=
      fun c hc => (hpending c hc).of_le hlater
    have hstart : span.start ≤ span.stop := hl.within.start_le_stop
    cases token with
    | int n =>
      cases hstep
      exact within_supply hcomplete (d := .int n span) hl.within rfl hpending'
    | symbol name =>
      cases hstep
      exact within_supply hcomplete (d := .symbol name span) hl.within rfl hpending'
    | quote =>
      cases hstep
      have hmark : Span.Within ⟨span.start, span.start + 1⟩ source := by
        rw [← hl.quote_stop rfl]
        exact hl.within
      exact ⟨hcomplete, List.forall_mem_cons.2 ⟨⟨hstart, hmark⟩, hpending'⟩⟩
    | lparen =>
      cases hstep
      refine ⟨hcomplete,
        List.forall_mem_cons.2 ⟨⟨hstart, hl.within.onBoundary_start, ?_⟩, hpending'⟩⟩
      exact fun _ hd => nomatch hd
    | rparen =>
      -- only an open list may be closed
      rcases pending with _ | ⟨_ | ⟨start, items⟩ | _, outer⟩ <;> try cases hstep
      obtain ⟨⟨hopened, hboundary, hitems⟩, -⟩ := List.forall_mem_cons.1 hpending
      have hreverse := Datum.allWithin_iff.2 fun d hd => hitems d (List.mem_reverse.1 hd)
      exact within_supply hcomplete (d := .list _ ⟨start, span.stop⟩)
        ⟨hclosed hopened hboundary, hreverse⟩ rfl (List.forall_mem_cons.1 hpending').2
    | dot =>
      -- a dot stands after an element of an open list
      rcases pending with _ | ⟨_ | ⟨start, _ | ⟨item, items⟩⟩ | _, outer⟩ <;> try cases hstep
      obtain ⟨hlist, houter⟩ := List.forall_mem_cons.1 hpending'
      exact ⟨hcomplete, List.forall_mem_cons.2 ⟨hlist, houter⟩⟩
    | _ => cases hstep
  | closing complete start items tail outer =>
    obtain ⟨hcomplete, ⟨hopened, hboundary, hitems⟩, htail, houter⟩ := hstate
    cases token with
    | rparen =>
      cases hstep
      have hreverse := Datum.allWithin_iff.2 fun d hd => hitems d (List.mem_reverse.1 hd)
      exact within_supply hcomplete (d := .dotted _ tail ⟨start, span.stop⟩)
        ⟨hclosed hopened hboundary, hreverse, htail⟩ rfl fun c hc => (houter c hc).of_le hlater
    | _ => cases hstep

end ParserState

namespace Datum

variable {source : String}

/-- The first token decides how the reading goes on. -/
theorem parseFrom_cons (state : ParserState) (l : Lexeme) (rest : List Lexeme) :
    parseFrom state (l :: rest) =
      match state.step? l with
      | some next => parseFrom next rest
      | none => .error ⟨some l, state.place⟩ := by
  cases state with
  | ready complete pending => cases pending <;> rfl
  | closing complete start items tail outer => rfl

/-- Without tokens left, the data are those that are complete, and nothing may be open. -/
theorem parseFrom_nil (state : ParserState) :
    (∃ complete, state = .ready complete [] ∧ parseFrom state [] = .ok complete.reverse) ∨
      parseFrom state [] = .error ⟨none, state.place⟩ := by
  cases state with
  | ready complete pending =>
    cases pending with
    | nil => exact .inl ⟨complete, rfl, rfl⟩
    | cons c outer => exact .inr rfl
  | closing complete start items tail outer => exact .inr rfl

/-- If there are data without tokens left, they are those that are complete. -/
theorem eq_ready_of_parseFrom_nil {state : ParserState} {data : List Datum}
    (hparse : parseFrom state [] = .ok data) : state = .ready data.reverse [] := by
  obtain ⟨complete, rfl, hdone⟩ | hfault := parseFrom_nil state
  · obtain rfl := Except.ok.inj (hdone.symm.trans hparse)
    rw [List.reverse_reverse]
  · cases hfault.symm.trans hparse

/-- From a state within the text on, the data that are read are within the text. -/
theorem within_of_parseFrom {position : Nat} {state : ParserState} {ls : List Lexeme}
    {data : List Datum} (hstate : state.Within source position)
    (hls : Lexeme.LaidOut source position ls) (hparse : parseFrom state ls = .ok data) :
    ∀ d ∈ data, d.Within source := by
  induction hls generalizing state with
  | nil =>
    obtain rfl := eq_ready_of_parseFrom_nil hparse
    exact fun d hd => hstate.1 d (List.mem_reverse.2 hd)
  | cons hle hproper _ ih =>
    rw [parseFrom_cons] at hparse
    split at hparse
    · next hstep => exact ih (ParserState.within_of_step? hstate hproper hle hstep) hparse
    · cases hparse

/-- The token that is blamed is one of those to be read. -/
theorem mem_of_parseFrom_error {state : ParserState} {ls : List Lexeme} {fault : SyntaxFault}
    {l : Lexeme} (hparse : parseFrom state ls = .error fault) (hfound : fault.found = some l) :
    l ∈ ls := by
  induction ls generalizing state with
  | nil =>
    obtain ⟨complete, rfl, hdone⟩ | hfault := parseFrom_nil state
    · rw [hdone] at hparse
      cases hparse
    · rw [hfault] at hparse
      cases hparse
      cases hfound
  | cons first rest ih =>
    rw [parseFrom_cons] at hparse
    split at hparse
    · exact List.mem_cons_of_mem _ (ih hparse)
    · cases hparse
      cases hfound
      exact List.mem_cons_self

/-- Before the first token nothing is known, so all that is known is within the text. -/
theorem within_start (source : String) : ParserState.start.Within source 0 :=
  ⟨fun _ hd => (List.not_mem_nil hd).elim, fun _ hc => (List.not_mem_nil hc).elim⟩

/-- The data of a text are within it. -/
theorem within_of_parse {data : List Datum} (h : parse (Lexeme.scan source) = .ok data) :
    ∀ d ∈ data, d.Within source :=
  within_of_parseFrom (within_start source) (Lexeme.laidOut_scan source) h

end Datum

end Secd
