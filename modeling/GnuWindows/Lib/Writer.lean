/-
  GnuWindows.Lib.Writer — computations that only write.

  A `Sink` is a state that texts are put to, the parts of a text one after the other.
  `Says W x Q`: from every state `x` ends in the same way and puts the same text, and these
  two have `Q`. So nothing that was put before changes what `x` says.
  `Silent x Q`: `x` leaves every state as it is, ends in the same way, and a value has `Q`.

  Proved: the rules for a value, an error, a text, a sequence, a choice and a loop that a
  measure ends; what a single run tells of all (`Says.of_run`, `Silent.of_run`).
-/
import GnuWindows.Lib.Hoare

namespace GnuWindows.Lib.Hoare

variable {σ γ ε α β τ : Type}

structure Sink (σ γ : Type) where
  put : σ → List γ → σ
  put_nil : ∀ s, put s [] = s
  put_append : ∀ s t u, put s (t ++ u) = put (put s t) u

def Silent (x : Comp σ ε α) (Q : α → Prop) : Prop := ∃ r, (∀ a, r = .ok a → Q a) ∧ ∀ s, x.run s = (r, s)

namespace Silent

variable {x : Comp σ ε α} {Q R : α → Prop}

theorem pure {a : α} (h : Q a) : Silent (Pure.pure a : Comp σ ε α) Q :=
  ⟨.ok a, fun _ ha => Except.ok.inj ha ▸ h, fun _ => rfl⟩

theorem throw {e : ε} : Silent (MonadExcept.throw e : Comp σ ε α) Q :=
  ⟨.error e, fun _ ha => (nomatch ha), fun _ => rfl⟩

theorem mono (h : Silent x Q) (hQ : ∀ a, Q a → R a) : Silent x R := by
  obtain ⟨r, hq, hrun⟩ := h
  exact ⟨r, fun a ha => hQ a (hq a ha), hrun⟩

/-- It only gives a value. -/
theorem eq_pure {a : α} (h : ∀ s, x.run s = (.ok a, s)) : x = Pure.pure a := funext h

/-- What is given is given in every state. -/
theorem self (h : Silent x Q) : Silent x fun a => Q a ∧ ∀ s, x.run s = (.ok a, s) := by
  obtain ⟨r, hq, hrun⟩ := h
  exact ⟨r, fun a ha => ⟨hq a ha, fun s => by rw [hrun, ha]⟩, hrun⟩

theorem bind {f : α → Comp σ ε β} {R : β → Prop} (hx : Silent x Q) (hf : ∀ a, Q a → Silent (f a) R) :
    Silent (x >>= f) R := by
  obtain ⟨r, hq, hrun⟩ := hx
  cases r with
  | error e =>
    refine ⟨.error e, fun _ ha => (nomatch ha), fun s => ?_⟩
    rw [Comp.run_bind, hrun]
  | ok a =>
    obtain ⟨r, hr, hrun'⟩ := hf a (hq a rfl)
    refine ⟨r, hr, fun s => ?_⟩
    rw [Comp.run_bind, hrun]
    exact hrun' s

theorem map {f : α → β} {R : β → Prop} (hx : Silent x Q) (hf : ∀ a, Q a → R (f a)) : Silent (f <$> x) R :=
  bind hx fun a ha => pure (hf a ha)

theorem ite {c : Prop} [Decidable c] {y : Comp σ ε α} (hpos : c → Silent x Q) (hneg : ¬ c → Silent y Q) :
    Silent (if c then x else y) Q := by
  split
  · exact hpos ‹_›
  · exact hneg ‹_›

/-- The loop rule: every turn keeps the invariant. -/
theorem loop [Nonempty σ] {body : τ → Comp σ ε (ForInStep τ)} {measure : τ → Nat} {h : Nearer body measure}
    {I P : τ → Prop} (hturn : ∀ t, I t → Silent (body t) fun r => match r with | .yield t' => I t' | .done t' => P t')
    {t : τ} (ht : I t) : Silent (Comp.loop body measure h t) P := by
  induction hm : measure t using Nat.strongRecOn generalizing t with
  | _ m ih =>
    subst hm
    obtain ⟨r, hq, hrun⟩ := hturn t ht
    cases r with
    | error e => exact ⟨.error e, fun _ ha => (nomatch ha), fun s => Comp.loop_error (hrun s)⟩
    | ok r =>
      cases r with
      | done t' => exact ⟨.ok t', fun _ ha => Except.ok.inj ha ▸ hq _ rfl, fun s => Comp.loop_done (hrun s)⟩
      | yield t' =>
        have hnearer := h t (Classical.arbitrary σ) trivial
        rw [hrun] at hnearer
        obtain ⟨r', hq', hrun'⟩ := ih _ (hnearer t' rfl) (hq _ rfl) rfl
        refine ⟨r', hq', fun s => ?_⟩
        rw [Comp.loop_yield (hrun s), hrun']

theorem of_run (h : Silent x Q) {s s' : σ} {a : α} (hrun : x.run s = (.ok a, s')) :
    Q a ∧ ∀ s, x.run s = (.ok a, s) := by
  obtain ⟨r, hq, hall⟩ := h
  obtain rfl : .ok a = r := congrArg Prod.fst (hrun.symm.trans (hall s))
  exact ⟨hq a rfl, hall⟩

end Silent

def Says (W : Sink σ γ) (x : Comp σ ε α) (Q : Except ε α → List γ → Prop) : Prop :=
  ∃ r text, Q r text ∧ ∀ s, x.run s = (r, W.put s text)

/-- Of a computation that may fail, what is said when it does not. -/
def Done (Q : α → List γ → Prop) (r : Except ε α) (text : List γ) : Prop := ∀ a, r = .ok a → Q a text

namespace Says

variable {W : Sink σ γ} {x : Comp σ ε α} {Q R : Except ε α → List γ → Prop}

theorem pure {a : α} (h : Q (.ok a) []) : Says W (Pure.pure a : Comp σ ε α) Q :=
  ⟨.ok a, [], h, fun s => by rw [W.put_nil]; rfl⟩

theorem throw {e : ε} (h : Q (.error e) []) : Says W (MonadExcept.throw e : Comp σ ε α) Q :=
  ⟨.error e, [], h, fun s => by rw [W.put_nil]; rfl⟩

theorem put {text : List γ} {Q : Except ε Unit → List γ → Prop} (h : Q (.ok ()) text) :
    Says W (Comp.step (W.put · text)) Q := ⟨.ok (), text, h, fun _ => rfl⟩

theorem mono (h : Says W x Q) (hQ : ∀ r t, Q r t → R r t) : Says W x R := by
  obtain ⟨r, text, hq, hrun⟩ := h
  exact ⟨r, text, hQ r text hq, hrun⟩

/-- What is said is said from every state. -/
theorem self (h : Says W x Q) : Says W x fun r t => Q r t ∧ ∀ s, x.run s = (r, W.put s t) := by
  obtain ⟨r, text, hq, hrun⟩ := h
  exact ⟨r, text, ⟨hq, hrun⟩, hrun⟩

theorem bind {f : α → Comp σ ε β} {R : Except ε β → List γ → Prop} (hx : Says W x Q)
    (hok : ∀ a t, Q (.ok a) t → Says W (f a) fun r u => R r (t ++ u))
    (herr : ∀ e t, Q (.error e) t → R (.error e) t) : Says W (x >>= f) R := by
  obtain ⟨r, text, hq, hrun⟩ := hx
  cases r with
  | error e =>
    refine ⟨.error e, text, herr e text hq, fun s => ?_⟩
    rw [Comp.run_bind, hrun]
  | ok a =>
    obtain ⟨r, text', hr, hrun'⟩ := hok a text hq
    refine ⟨r, text ++ text', hr, fun s => ?_⟩
    rw [Comp.run_bind, hrun, W.put_append]
    exact hrun' _

theorem ite {c : Prop} [Decidable c] {y : Comp σ ε α} (hpos : c → Says W x Q) (hneg : ¬ c → Says W y Q) :
    Says W (if c then x else y) Q := by
  split
  · exact hpos ‹_›
  · exact hneg ‹_›

/-- The loop rule: every turn keeps the invariant, which is about the text so far. -/
theorem loop [Nonempty σ] {body : τ → Comp σ ε (ForInStep τ)} {measure : τ → Nat} {h : Nearer body measure}
    {I : τ → List γ → Prop} {Q : Except ε τ → List γ → Prop}
    (hturn : ∀ t acc, I t acc → Says W (body t) fun r u =>
      match r with
      | .ok (.yield t') => I t' (acc ++ u)
      | .ok (.done t') => Q (.ok t') (acc ++ u)
      | .error e => Q (.error e) (acc ++ u))
    {t : τ} {v : List γ} (ht : I t v) : Says W (Comp.loop body measure h t) fun r u => Q r (v ++ u) := by
  induction hm : measure t using Nat.strongRecOn generalizing t v with
  | _ m ih =>
    subst hm
    obtain ⟨r, text, hq, hrun⟩ := hturn t v ht
    cases r with
    | error e => exact ⟨.error e, text, hq, fun s => Comp.loop_error (hrun s)⟩
    | ok r =>
      cases r with
      | done t' => exact ⟨.ok t', text, hq, fun s => Comp.loop_done (hrun s)⟩
      | yield t' =>
        -- the turn says the same from any state, so one tells that the measure falls
        have hnearer := h t (Classical.arbitrary σ) trivial
        rw [hrun] at hnearer
        obtain ⟨r', text', hq', hrun'⟩ := ih _ (hnearer t' rfl) hq rfl
        refine ⟨r', text ++ text', by simpa only [List.append_assoc] using hq', fun s => ?_⟩
        rw [Comp.loop_yield (hrun s), hrun', W.put_append]

/-! That something is said -/

theorem any_bind {f : α → Comp σ ε β} (hx : Says W x fun _ _ => True) (hf : ∀ a, Says W (f a) fun _ _ => True) :
    Says W (x >>= f) fun _ _ => True := bind hx (fun a _ _ => hf a) fun _ _ _ => trivial

theorem any_loop [Nonempty σ] {body : τ → Comp σ ε (ForInStep τ)} {measure : τ → Nat} {h : Nearer body measure}
    (hturn : ∀ t, Says W (body t) fun _ _ => True) {t : τ} : Says W (Comp.loop body measure h t) fun _ _ => True := by
  refine loop (v := []) (I := fun _ _ => True) (Q := fun _ _ => True) (fun t _ _ => (hturn t).mono fun r _ _ => ?_)
    trivial
  rcases r with e | (t' | t') <;> trivial

theorem any_silent {P : α → Prop} (h : Silent x P) : Says W x fun _ _ => True := by
  obtain ⟨r, -, hrun⟩ := h
  exact ⟨r, [], trivial, fun s => by rw [hrun, W.put_nil]⟩

theorem any_silent_bind {f : α → Comp σ ε β} {P : α → Prop} (hx : Silent x P) (hf : ∀ a, Says W (f a) fun _ _ => True) :
    Says W (x >>= f) fun _ _ => True := any_bind (any_silent hx) hf

theorem any_put {text : List γ} : Says W (Comp.step (W.put · text) : Comp σ ε Unit) fun _ _ => True := put trivial

/-! What is said when nothing fails -/

theorem done_pure {a : α} {Q : α → List γ → Prop} (h : Q a []) : Says W (Pure.pure a : Comp σ ε α) (Done Q) :=
  pure fun _ ha => Except.ok.inj ha ▸ h

theorem done_bind {f : α → Comp σ ε β} {Q : α → List γ → Prop} {R : β → List γ → Prop} (hx : Says W x (Done Q))
    (hf : ∀ a t, Q a t → Says W (f a) (Done fun b u => R b (t ++ u))) : Says W (x >>= f) (Done R) :=
  bind hx (fun a t h => hf a t (h a rfl)) fun _ _ _ _ ha => nomatch ha

theorem silent_bind {f : α → Comp σ ε β} {Q : α → Prop} {R : β → List γ → Prop} (hx : Silent x Q)
    (hf : ∀ a, Q a → Says W (f a) (Done R)) : Says W (x >>= f) (Done R) := by
  obtain ⟨r, hq, hrun⟩ := hx
  have hx : Says W x (Done fun a t => Q a ∧ t = []) :=
    ⟨r, [], fun a ha => ⟨hq a ha, rfl⟩, fun s => by rw [hrun, W.put_nil]⟩
  refine done_bind hx fun a t h => ?_
  rw [h.2]
  exact hf a h.1

theorem done_put {text : List γ} {f : Unit → Comp σ ε β} {R : β → List γ → Prop}
    (hf : Says W (f ()) (Done fun b u => R b (text ++ u))) : Says W (Comp.step (W.put · text) >>= f) (Done R) :=
  done_bind (Q := fun _ t => t = text) (put fun _ _ => rfl) fun _ _ h => h ▸ hf

theorem done_loop [Nonempty σ] {body : τ → Comp σ ε (ForInStep τ)} {measure : τ → Nat} {h : Nearer body measure}
    {I Q : τ → List γ → Prop} (hturn : ∀ t acc, I t acc → Says W (body t) (Done fun r u =>
      match r with
      | .yield t' => I t' (acc ++ u)
      | .done t' => Q t' (acc ++ u)))
    {t : τ} (ht : I t []) : Says W (Comp.loop body measure h t) (Done Q) := by
  have hloop := loop (W := W) (h := h) (Q := Done Q) (I := I) (fun t acc ht => (hturn t acc ht).mono ?_) ht
  · simpa only [List.nil_append] using hloop
  · rintro (e | r) u hr
    · exact fun _ ha => nomatch ha
    · cases r with
      | yield t' => exact hr _ rfl
      | done t' => exact fun _ ha => Except.ok.inj ha ▸ hr _ rfl

/-- One run tells of all. -/
theorem of_run (h : Says W x Q) {s s' : σ} {r : Except ε α} (hrun : x.run s = (r, s')) :
    ∃ text, Q r text ∧ ∀ s, x.run s = (r, W.put s text) := by
  obtain ⟨r', text, hq, hall⟩ := h
  obtain rfl : r = r' := congrArg Prod.fst (hrun.symm.trans (hall s))
  exact ⟨text, hq, hall⟩

end Says

end GnuWindows.Lib.Hoare
