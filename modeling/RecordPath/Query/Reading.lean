import RecordPath.Query.Error

namespace RecordPath

/-- The result of reading from `tokens`, and what is left of them. -/
structure Reading (α : Type) (tokens : List Located) where
  result : Except CompileError α
  rest : List Located
  suffix : rest <:+ tokens

namespace Reading

variable {α β : Type} {tokens us : List Located}

def done (a : α) (tokens : List Located) : Reading α tokens := ⟨.ok a, tokens, List.suffix_refl _⟩

def fail (e : CompileError) (tokens : List Located) : Reading α tokens :=
  ⟨.error e, tokens, List.suffix_refl _⟩

def after (t : Located) (r : Reading α us) : Reading α (t :: us) :=
  ⟨r.result, r.rest, r.suffix.trans (List.suffix_cons t us)⟩

def bind (r : Reading α tokens)
    (next : α → (us : List Located) → us <:+ tokens → Reading β us) : Reading β tokens :=
  match r.result with
  | .ok a =>
    let s := next a r.rest r.suffix
    ⟨s.result, s.rest, s.suffix.trans r.suffix⟩
  | .error e => ⟨.error e, r.rest, r.suffix⟩

def map (f : α → β) (r : Reading α tokens) : Reading β tokens :=
  ⟨r.result.map f, r.rest, r.suffix⟩

@[simp] theorem result_after (t : Located) (r : Reading α us) :
    (r.after t).result = r.result := rfl

@[simp] theorem rest_after (t : Located) (r : Reading α us) : (r.after t).rest = r.rest := rfl

@[simp] theorem result_map (f : α → β) (r : Reading α tokens) :
    (r.map f).result = r.result.map f := rfl

theorem ext_of_eq {r s : Reading α tokens} (hr : r.result = s.result) (hs : r.rest = s.rest) :
    r = s := by
  cases r
  cases s
  cases hr
  cases hs
  rfl

section Bind

variable {γ : Type} {r : Reading α tokens} {a : α} {e : CompileError}
variable {f g : α → (us : List Located) → us <:+ tokens → Reading β us}

theorem bind_of_ok (h : r.result = .ok a) :
    (r.bind f).result = (f a r.rest r.suffix).result ∧
      (r.bind f).rest = (f a r.rest r.suffix).rest := by
  unfold bind
  split <;> rename_i h' <;> cases h.symm.trans h'
  exact ⟨rfl, rfl⟩

theorem bind_of_error (h : r.result = .error e) :
    (r.bind f).result = .error e ∧ (r.bind f).rest = r.rest := by
  unfold bind
  split <;> rename_i h' <;> cases h.symm.trans h'
  exact ⟨rfl, rfl⟩

/-- A reading that succeeds has succeeded in both parts, and ends where the second one does. -/
theorem of_bind_eq_ok {b : β} (h : (r.bind f).result = .ok b) :
    ∃ a, r.result = .ok a ∧ (f a r.rest r.suffix).result = .ok b ∧
      (r.bind f).rest = (f a r.rest r.suffix).rest := by
  cases hr : r.result with
  | ok a =>
    obtain ⟨hres, hrest⟩ := bind_of_ok (f := f) hr
    exact ⟨a, rfl, hres.symm.trans h, hrest⟩
  | error e =>
    have hbad := (bind_of_error (f := f) hr).1.symm.trans h
    cases hbad

/-- What goes on from a reading matters only where the reading gets to. -/
theorem bind_congr
    (h : ∀ a us (hs : us <:+ tokens), r.result = .ok a → r.rest = us → f a us hs = g a us hs) :
    r.bind f = r.bind g := by
  cases hr : r.result with
  | ok a =>
    obtain ⟨hf, hf'⟩ := bind_of_ok (f := f) hr
    obtain ⟨hg, hg'⟩ := bind_of_ok (f := g) hr
    rw [h a r.rest r.suffix hr rfl] at hf hf'
    exact ext_of_eq (hf.trans hg.symm) (hf'.trans hg'.symm)
  | error e =>
    obtain ⟨hf, hf'⟩ := bind_of_error (f := f) hr
    obtain ⟨hg, hg'⟩ := bind_of_error (f := g) hr
    exact ext_of_eq (hf.trans hg.symm) (hf'.trans hg'.symm)

theorem bind_assoc (r : Reading α tokens)
    (f : α → (us : List Located) → us <:+ tokens → Reading β us)
    (g : β → (us : List Located) → us <:+ tokens → Reading γ us) :
    (r.bind f).bind g =
      r.bind fun a us h => (f a us h).bind fun b vs h' => g b vs (h'.trans h) := by
  obtain ⟨result, rest, suffix⟩ := r
  cases result with
  | error e => rfl
  | ok a =>
    apply ext_of_eq
    · cases h : (f a rest suffix).result <;> simp [bind, h]
    · cases h : (f a rest suffix).result <;> simp [bind, h]

end Bind

theorem done_bind (a : α) (f : α → (us : List Located) → us <:+ tokens → Reading β us) :
    (done a tokens).bind f = f a tokens (List.suffix_refl _) := rfl

theorem fail_bind (e : CompileError)
    (f : α → (us : List Located) → us <:+ tokens → Reading β us) :
    (fail e tokens).bind f = fail e tokens := rfl

theorem bind_done (r : Reading α tokens) : (r.bind fun a us _ => done a us) = r := by
  obtain ⟨result, rest, suffix⟩ := r
  cases result <;> rfl

theorem map_eq_bind (r : Reading α tokens) (f : α → β) :
    r.map f = r.bind fun a us _ => done (f a) us := by
  obtain ⟨result, rest, suffix⟩ := r
  cases result <;> rfl

theorem map_id (r : Reading α tokens) : (r.map fun a => a) = r := by
  obtain ⟨result, rest, suffix⟩ := r
  cases result <;> rfl

section Map

variable {γ : Type}

theorem map_map (r : Reading α tokens) (f : α → β) (g : β → γ) :
    (r.map f).map g = r.map fun a => g (f a) := by
  obtain ⟨result, rest, suffix⟩ := r
  cases result <;> rfl

theorem bind_map (r : Reading α tokens)
    (f : α → (us : List Located) → us <:+ tokens → Reading β us) (g : β → γ) :
    (r.bind f).map g = r.bind fun a us h => (f a us h).map g := by
  obtain ⟨result, rest, suffix⟩ := r
  cases result <;> rfl

end Map

theorem map_after (t : Located) (r : Reading α us) (f : α → β) :
    (r.after t).map f = (r.map f).after t := rfl

theorem after_bind (t : Located) (r : Reading α us)
    (f : α → (vs : List Located) → vs <:+ t :: us → Reading β vs) :
    (r.after t).bind f =
      (r.bind fun a vs h => f a vs (h.trans (List.suffix_cons t us))).after t := by
  obtain ⟨result, rest, suffix⟩ := r
  cases result <;> rfl

end Reading

def frontPosition (stop : Nat) : List Located → Nat
  | [] => stop
  | t :: _ => t.position

def unexpectedFront (stop : Nat) : List Located → CompileError
  | [] => ⟨.unexpectedToken .endOfInput, stop⟩
  | t :: _ => ⟨.unexpectedToken t.token, t.position⟩

/-- Whether no operand can begin here: at the end, a closing mark or a comma. -/
def endsOperand : List Located → Bool
  | [] => true
  | t :: _ =>
    match t.token with
    | .symbol .rightBracket | .symbol .rightParen | .symbol .comma | .endOfInput => true
    | _ => false

end RecordPath
