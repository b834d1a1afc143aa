import Scuttlecast.Library.Labelled

/-! Forward simulation between labelled systems: one step of the first is matched by any number of
steps of the second, and every state of the first stands for one of the second. -/
namespace Labelled

variable {S A T B : Type*}

/-- What the first system does from related states, by steps that meet `ok`, the second can do in a
run of its own. -/
structure Simulates (M : System S A) (N : System T B) (ok : A → S → Prop) (R : S → T → Prop) :
    Prop where
  init : ∀ s, M.init s → ∃ t, N.init t ∧ R s t
  step : ∀ a s s' t, ok a s → Reachable N t → R s t → M.next a s = some s' →
    ∃ bs t', exec N bs t = some t' ∧ R s' t'

variable {M : System S A} {N : System T B} {ok : A → S → Prop} {R : S → T → Prop}

theorem Simulates.reachable (h : Simulates M N ok R) {s : S} (hs : Reach M ok s) :
    ∃ t, Reachable N t ∧ R s t := by
  refine Reach.invariant (I := fun s => ∃ t, Reachable N t ∧ R s t) ?_ ?_ hs
  · intro s hinit
    obtain ⟨t, ht, hR⟩ := h.init s hinit
    exact ⟨t, .start ht, hR⟩
  · rintro a s s' hok ⟨t, ht, hR⟩ hn
    obtain ⟨bs, t', hexec, hR'⟩ := h.step a s s' t hok ht hR hn
    exact ⟨t', ht.exec hexec, hR'⟩

/-- A step that the second system sees nothing of. -/
theorem matched_by_none {s' : S} {t : T} (hR : R s' t) :
    ∃ bs t', exec N bs t = some t' ∧ R s' t' := ⟨[], t, rfl, hR⟩

/-- A step that is one of the second system too. -/
theorem matched_by_one {s' : S} {t t' : T} {b : B} (hn : N.next b t = some t') (hR : R s' t') :
    ∃ bs t', exec N bs t = some t' ∧ R s' t' :=
  ⟨[b], t', by rw [exec_cons, hn]; rfl, hR⟩

end Labelled
