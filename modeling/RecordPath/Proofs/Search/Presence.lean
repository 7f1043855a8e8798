import RecordPath.Proofs.Eval.Observation
import RecordPath.Proofs.Eval.TypeAgreement
import RecordPath.Search.Expansion

namespace RecordPath

/-- Two messages of one type that have the same fields present. -/
structure MessageOf.PresentAlike (m n : Message) : Prop where
  type : n.type = m.type
  has : ∀ f ∈ m.type.fields, n.has f = m.has f

namespace MessageOf.PresentAlike

variable {m n : Message}

theorem readsLike (h : PresentAlike m n) :
    (Value.message n).ReadsLike true (Value.message m) where
  property ctx name hp := by
    have hr := Context.reads { ctx with this := .message m } name
    refine Context.Reads.eq ?_
    generalize ({ ctx with this := .message m } : Context).property name = r at hr
    cases hr with
    | notARecord hm => exact absurd rfl (hm m)
    | wildcard hm hn =>
      cases hm
      rw [← MessageOf.hasAny_congr h.type h.has]
      exact .wildcard rfl hn
    | undeclared hm hn hf =>
      cases hm
      exact .undeclared rfl hn (h.type ▸ hf)
    | presence hd hpresence =>
      cases hd.eq
      rw [← h.has _ (MessageType.mem_of_field? hd.field).1]
      exact .presence ⟨rfl, hd.ne, h.type ▸ hd.field⟩ hpresence
    -- all other outcomes belong to properties that are read for their values
    | notScalar _ hvalue | absent _ hvalue | value _ hvalue => cases hp.symm.trans hvalue
  builtin _ f := by cases f <;> rfl

end MessageOf.PresentAlike

/-- A single record is passed on as it is, or dropped. -/
theorem Pending.pushes_keySingle (p : Pending) (e : Expr) :
    (p.keySingle e).pushes =
      if RecordPath.holds (e.eval { this := p.value, presence := true }) then
        [⟨p.step + 1, p.value, p.field⟩]
      else [] := by
  unfold keySingle
  split <;> rename_i h
  · rw [h]
    rfl
  · rw [h]
    rfl
  · rename_i s htrue hfalse
    cases s with
    | bool b => cases b <;> contradiction
    | _ => rw [h]; rfl
  · rw [h]
    rfl

/-- Messages that have the same fields present are told apart by no expression that asks whether
fields are there: it has the same value for both, or it fails alike. So a key step passes both of
them on, or it drops both. -/
theorem Expr.eval_of_presentAlike {m n : Message} (h : m.PresentAlike n) (e : Expr) :
    (∀ ctx : Context, ctx.presence = true →
      e.eval { ctx with this := .message n } = e.eval { ctx with this := .message m }) ∧
    ∀ p q : Pending, p.value = .message m → q.value = .message n →
      (∀ i j, ((p.expand (.key e)).run i).1.pushes = [⟨p.step + 1, p.value, p.field⟩] ∧
        ((q.expand (.key e)).run j).1.pushes = [⟨q.step + 1, q.value, q.field⟩]) ∨
      ∀ i j, ((p.expand (.key e)).run i).1.pushes = [] ∧
        ((q.expand (.key e)).run j).1.pushes = [] := by
  have heval (ctx : Context) := e.eval_of_readsLike h.readsLike ctx
  refine ⟨heval, fun p q hp hq => ?_⟩
  have hkey (p : Pending) {m : Message} (hp : p.value = .message m) (i : Nat) :
      ((p.expand (.key e)).run i).1.pushes = (p.keySingle e).pushes := by
    change (p.applyKey e ⟨i⟩).pushes = _
    rw [Pending.applyKey, hp]
  have hsame := heval { this := .message m, presence := true } rfl
  simp only [hkey p hp, hkey q hq, Pending.pushes_keySingle, hp, hq, hsame]
  cases holds (e.eval { this := .message m, presence := true }) with
  | true => exact .inl fun _ _ => ⟨rfl, rfl⟩
  | false => exact .inr fun _ _ => ⟨rfl, rfl⟩

namespace Tasks

def shelved : Message := ⟨⟨7⟩, taskType, [some (.int 5), some (.uint 0)]⟩

theorem presentAlike_shelved : task.PresentAlike shelved where
  type := rfl
  has := by decide

end Tasks

/-- A state is there in both tasks, and a size in neither. -/
theorem Expr.eval_of_presentAlike_tasks :
    let e : Expr := .binary (.connect .and)
      (.binary (.compare .equal) (.property "state") (.property "*"))
      (.unary .not (.property "size"))
    let ctx : Context := { this := .message Tasks.task, presence := true, index := some 3 }
    Tasks.task.PresentAlike Tasks.shelved ∧ e.eval ctx = .ok (.bool true) ∧
      e.eval { ctx with this := .message Tasks.shelved } = .ok (.bool true) := by
  intro e ctx
  have htask : e.eval ctx = .ok (.bool true) := rfl
  exact ⟨Tasks.presentAlike_shelved, htask,
    ((eval_of_presentAlike Tasks.presentAlike_shelved e).1 ctx rfl).trans htask⟩

/-- Where it is read for its value, the state tells them apart. -/
example :
    let isDone : Expr := .binary (.compare .equal) (.property "state") (.literal (.string "DONE"))
    isDone.eval { this := .message Tasks.task } = .ok (.bool true) ∧
      isDone.eval { this := .message Tasks.shelved } ≠ .ok (.bool true) :=
  ⟨rfl, nofun⟩

end RecordPath
