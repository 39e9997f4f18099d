import Cssom.Proofs.Reading.Advance

/-!
# The moments of a run

A run passes through parsers, one after each of its steps: its *moments*. A property that no step
breaks holds at each of them (`moments_induct`); the last one is the parser that the run ends with
(`getLast?_moments`). The frames that a run closes are listed with the parsers before they were
opened and after they were closed.
-/

namespace Cssom

/-- The parsers around one run of a production in a frame of its own. -/
structure FrameRun where
  /-- Before the frame was opened. -/
  opened : Parser
  /-- After the frame was closed. -/
  closed : Parser

namespace Production

/-- The parsers that a run passes through, from the one it starts with to the one it ends with. -/
def moments {α : Type} : Production α → Parser → List Parser
  | done _, parser => [parser]
  | look next, parser => (next parser.view).moments parser
  | advance next, parser => parser :: next.moments parser.advance
  | report diagnostic next, parser => parser :: next.moments (parser.report diagnostic)
  | enclosed body entity next, parser =>
    parser :: body.moments parser.openFrame ++
      (next (body.run parser.openFrame).1).moments
        ((body.run parser.openFrame).2.closeFrame (entity (body.run parser.openFrame).1))

/-- The frames that a run closes, in the order in which it closes them. -/
def frameRuns {α : Type} : Production α → Parser → List FrameRun
  | done _, _ => []
  | look next, parser => (next parser.view).frameRuns parser
  | advance next, parser => next.frameRuns parser.advance
  | report diagnostic next, parser => next.frameRuns (parser.report diagnostic)
  | enclosed body entity next, parser =>
    let closed := (body.run parser.openFrame).2.closeFrame (entity (body.run parser.openFrame).1)
    body.frameRuns parser.openFrame ++
      ⟨parser, closed⟩ :: (next (body.run parser.openFrame).1).frameRuns closed

/-- The last moment of a run is the parser that it ends with. -/
theorem getLast?_moments {α : Type} (p : Production α) (parser : Parser) :
    (p.moments parser).getLast? = some (p.run parser).2 := by
  induction p generalizing parser with
  | done result => rfl
  | look next ih => exact ih _ _
  | advance next ih =>
    rw [moments, List.getLast?_cons, ih]
    rfl
  | report diagnostic next ih =>
    rw [moments, List.getLast?_cons, ih]
    rfl
  | enclosed body entity next _ ih =>
    rw [moments, List.getLast?_append, ih]
    rfl

/-- The parser that a run starts with is one of its moments. -/
theorem self_mem_moments {α : Type} (p : Production α) (parser : Parser) :
    parser ∈ p.moments parser := by
  induction p generalizing parser with
  | done result => exact List.mem_singleton_self _
  | look next ih => exact ih _ _
  | advance next _ => exact List.mem_cons_self
  | report diagnostic next _ => exact List.mem_cons_self
  | enclosed body entity next _ _ => exact List.mem_cons_self

/-- The parsers around a frame are moments of the run that closes it. -/
theorem frameRuns_subset_moments {α : Type} (p : Production α) (parser : Parser) :
    ∀ run ∈ p.frameRuns parser,
      run.opened ∈ p.moments parser ∧ run.closed ∈ p.moments parser := by
  induction p generalizing parser with
  | done result => exact fun _ hr => absurd hr List.not_mem_nil
  | look next ih => exact ih _ _
  | advance next ih =>
    intro run hr
    obtain ⟨ho, hc⟩ := ih _ run hr
    exact ⟨List.mem_cons_of_mem _ ho, List.mem_cons_of_mem _ hc⟩
  | report diagnostic next ih =>
    intro run hr
    obtain ⟨ho, hc⟩ := ih _ run hr
    exact ⟨List.mem_cons_of_mem _ ho, List.mem_cons_of_mem _ hc⟩
  | enclosed body entity next ihBody ih =>
    intro run hr
    rw [frameRuns, List.mem_append, List.mem_cons] at hr
    rw [moments, List.cons_append, List.mem_cons, List.mem_append, List.mem_cons, List.mem_append]
    rcases hr with hr | rfl | hr
    · obtain ⟨ho, hc⟩ := ihBody _ run hr
      exact ⟨Or.inr (Or.inl ho), Or.inr (Or.inl hc)⟩
    · exact ⟨Or.inl rfl, Or.inr (Or.inr (self_mem_moments _ _))⟩
    · obtain ⟨ho, hc⟩ := ih _ _ run hr
      exact ⟨Or.inr (Or.inr ho), Or.inr (Or.inr hc)⟩

/-- What holds of the first parser of a run and is kept by every step holds at every moment. -/
theorem moments_induct {P : Parser → Prop} (hadvance : ∀ s, P s → P s.advance)
    (hreport : ∀ s d, P s → P (s.report d)) (hopen : ∀ s, P s → P s.openFrame)
    (hclose : ∀ s e, P s → P (s.closeFrame e)) {α : Type} (p : Production α) (parser : Parser)
    (h : P parser) : ∀ moment ∈ p.moments parser, P moment := by
  induction p generalizing parser with
  | done result =>
    intro moment hm
    rw [moments, List.mem_singleton] at hm
    exact hm ▸ h
  | look next ih => exact ih _ _ h
  | advance next ih =>
    intro moment hm
    rcases List.mem_cons.1 hm with rfl | hm
    · exact h
    · exact ih _ (hadvance _ h) moment hm
  | report diagnostic next ih =>
    intro moment hm
    rcases List.mem_cons.1 hm with rfl | hm
    · exact h
    · exact ih _ (hreport _ _ h) moment hm
  | enclosed body entity next ihBody ih =>
    have hbody := ihBody parser.openFrame (hopen _ h)
    have hinner : P (body.run parser.openFrame).2 :=
      hbody _ (List.mem_of_getLast? (getLast?_moments body parser.openFrame))
    intro moment hm
    rw [moments, List.cons_append, List.mem_cons, List.mem_append] at hm
    rcases hm with rfl | hm | hm
    · exact h
    · exact hbody moment hm
    · exact ih _ _ (hclose _ _ hinner) moment hm

/-- Every moment is one to which the input of the first was moved on. -/
theorem reaches_of_mem_moments {α : Type} (p : Production α) (parser : Parser) :
    ∀ moment ∈ p.moments parser, parser.input.Reaches moment.input :=
  moments_induct (P := fun s => parser.input.Reaches s.input)
    (fun _ h => h.trans (.advance _)) (fun _ _ h => h) (fun _ h => h) (fun _ _ h => h)
    p parser (.refl _)

end Production

end Cssom
