import EinkHwc.Trace.System

/-!
# Paths, and where they end

A **path** is what a system does from some state on while only actions of one kind are taken, such
as the steps that its threads make on their own while nothing new is asked of them.

* `System.Path act s n es s'`: `n` steps by actions with `act`, their events newest first.
  `Run.path`: a run with a path behind it is a run.
* `Path.rank_le`: a rank that every such step decreases bounds the length of every path.
* `System.Settles act s`: no path from `s` goes on forever. `settles_of_rank` proves it from a rank
  in any well-founded order, where a number is not enough.
* `Settles.exists_stuck`: then some path ends where no such step is possible (`Stuck`).
-/

namespace Trace.System

variable {σ α ε : Type} (S : System σ α ε) (act : α → Prop)

/-- Steps by actions with `act` (module doc). -/
inductive Path (s : σ) : Nat → List ε → σ → Prop
  | nil : Path s 0 [] s
  | snoc {s₁ s' : σ} {n : Nat} {a : α} {es es₁ : List ε} : Path s n es₁ s₁ → act a →
      S.step s₁ a = some (s', es) → Path s (n + 1) (es ++ es₁) s'

/-- No action with `act` is possible. -/
def Stuck (s : σ) : Prop := ∀ a, act a → S.step s a = none

/-- The step relation of the actions with `act`, the later state first. -/
def Later (s' s : σ) : Prop := ∃ a es, act a ∧ S.step s a = some (s', es)

/-- Every path from `s` ends. -/
def Settles (s : σ) : Prop := Acc (S.Later act) s

variable {S act} {s s' : σ} {n : Nat} {es tr : List ε} {ok : σ → α → Prop}

theorem Run.path (hok : ∀ s a, act a → ok s a) (hr : S.Run ok tr s)
    (hp : S.Path act s n es s') : S.Run ok (es ++ tr) s' := by
  induction hp with
  | nil => exact hr
  | snoc _ ha hs ih =>
    rw [List.append_assoc]
    exact .step ih (hok _ _ ha) hs

theorem Path.cons {s₁ : σ} {a : α} {es₁ : List ε} (ha : act a)
    (hs : S.step s a = some (s₁, es₁)) (hp : S.Path act s₁ n es s') :
    S.Path act s (n + 1) (es ++ es₁) s' := by
  induction hp with
  | nil => simpa using Path.snoc .nil ha hs
  | snoc _ hb ht ih =>
    rw [List.append_assoc]
    exact .snoc ih hb ht

/-- The path of a list of actions. -/
theorem Path.of_exec [DecidablePred act] {s₁ : σ} {es₁ : List ε} {as : List α}
    (hp : S.Path act s n es₁ s₁) (he : S.exec (fun _ a => act a) es₁ s₁ as = some (es, s')) :
    S.Path act s (n + as.length) es s' := by
  induction as generalizing n es₁ s₁ with
  | nil =>
    simp only [exec, Option.some.injEq, Prod.mk.injEq] at he
    obtain ⟨rfl, rfl⟩ := he
    exact hp
  | cons a as ih =>
    unfold exec at he
    split at he
    · rename_i ha
      split at he
      · rename_i hs
        have h := ih (.snoc hp ha hs) he
        rwa [Nat.add_assoc, Nat.add_comm 1] at h
      · cases he
    · cases he

/-- What every step with `act` keeps holds at the end of a path. -/
theorem Path.keeps {J : σ → Prop}
    (hJ : ∀ s a s' es, J s → act a → S.step s a = some (s', es) → J s')
    (hp : S.Path act s n es s') (hs : J s) : J s' := by
  induction hp with
  | nil => exact hs
  | snoc _ ha ht ih => exact hJ _ _ _ _ ih ha ht

section Rank

variable {J : σ → Prop} (hJ : ∀ s a s' es, J s → act a → S.step s a = some (s', es) → J s')

include hJ

/-- A rank that every step decreases bounds the length of a path. -/
theorem Path.rank_le {rank : σ → Nat}
    (hrank : ∀ s a s' es, J s → act a → S.step s a = some (s', es) → rank s' < rank s)
    (hp : S.Path act s n es s') (hs : J s) : rank s' + n ≤ rank s := by
  induction hp with
  | nil => exact Nat.le_refl _
  | snoc hp ha ht ih =>
    have h1 := hrank _ _ _ _ (hp.keeps hJ hs) ha ht
    omega

/-- The same in any well-founded order, without the bound. -/
theorem settles_of_rank {β : Type} {r : β → β → Prop} (hwf : WellFounded r) {rank : σ → β}
    (hrank : ∀ s a s' es, J s → act a → S.step s a = some (s', es) → r (rank s') (rank s))
    (hs : J s) : S.Settles act s := by
  have h : ∀ b s, rank s = b → J s → S.Settles act s := by
    intro b
    induction b using hwf.induction with
    | _ b ih =>
      rintro s rfl hs
      refine .intro s ?_
      rintro s' ⟨a, es, ha, ht⟩
      exact ih _ (hrank s a s' es hs ha ht) s' rfl (hJ s a s' es hs ha ht)
  exact h _ s rfl hs

end Rank

/-- Where every path ends, some path ends in a state that is stuck. -/
theorem Settles.exists_stuck (h : S.Settles act s) :
    ∃ n es s', S.Path act s n es s' ∧ S.Stuck act s' := by
  induction h with
  | intro s _ ih =>
    by_cases hs : S.Stuck act s
    · exact ⟨0, [], s, .nil, hs⟩
    · obtain ⟨a, ha⟩ := Classical.not_forall.1 hs
      obtain ⟨hact, hstep⟩ := Classical.not_imp.1 ha
      obtain ⟨⟨s₁, es₁⟩, ht⟩ := Option.ne_none_iff_exists'.1 hstep
      obtain ⟨n, es, s', hp, hstuck⟩ := ih s₁ ⟨a, es₁, hact, ht⟩
      exact ⟨n + 1, es ++ es₁, s', hp.cons hact ht, hstuck⟩

end Trace.System
