import RecordPath.Search.OnceQueue
import Std.Data.TreeSet.Lemmas

namespace RecordPath

section Firsts

variable {α κ : Type} [DecidableEq κ]

/-- The items whose key is not known and not on an item before them; items without a key all
stay. -/
def firsts (key? : α → Option κ) (known : List κ) : List α → List α
  | [] => []
  | a :: rest =>
    match key? a with
    | none => a :: firsts key? known rest
    | some k => if k ∈ known then firsts key? known rest else a :: firsts key? (k :: known) rest

variable {key? : α → Option κ} {known known' : List κ} {a : α} {k : κ} {items : List α}

theorem firsts_cons_of_none (h : key? a = none) :
    firsts key? known (a :: items) = a :: firsts key? known items := by
  simp only [firsts, h]

theorem firsts_cons_of_mem (h : key? a = some k) (hk : k ∈ known) :
    firsts key? known (a :: items) = firsts key? known items := by
  simp only [firsts, h, if_pos hk]

theorem firsts_cons_of_not_mem (h : key? a = some k) (hk : k ∉ known) :
    firsts key? known (a :: items) = a :: firsts key? (k :: known) items := by
  simp only [firsts, h, if_neg hk]

theorem firsts_sublist (known : List κ) (items : List α) :
    (firsts key? known items).Sublist items := by
  induction items generalizing known with
  | nil => exact .slnil
  | cons a rest ih =>
    unfold firsts
    split
    · exact (ih known).cons_cons a
    · split
      · exact (ih known).cons a
      · exact (ih _).cons_cons a

/-- Only the keys matter that are known, not their order. -/
theorem firsts_congr (h : ∀ k, k ∈ known ↔ k ∈ known') (items : List α) :
    firsts key? known items = firsts key? known' items := by
  induction items generalizing known known' with
  | nil => rfl
  | cons a rest ih =>
    unfold firsts
    split
    · rw [ih h]
    · rename_i k _
      have hk : ∀ l, l ∈ k :: known ↔ l ∈ k :: known' := by simp [h]
      rw [ih h, ih hk]
      simp only [h]

theorem not_mem_of_mem_firsts (h : a ∈ firsts key? known items) (hk : key? a = some k) :
    k ∉ known := by
  induction items generalizing known with
  | nil => cases h
  | cons b rest ih =>
    unfold firsts at h
    split at h
    · rename_i hb
      rcases List.mem_cons.1 h with rfl | h
      · rw [hb] at hk
        cases hk
      · exact ih h
    · rename_i l hb
      split at h
      · exact ih h
      · rename_i hl
        rcases List.mem_cons.1 h with rfl | h
        · obtain rfl := Option.some.inj (hb.symm.trans hk)
          exact hl
        · exact fun hm => ih h (List.mem_cons_of_mem l hm)

/-- What has been let through counts as known for what follows. -/
theorem firsts_append (known : List κ) (items more : List α) :
    firsts key? known (items ++ more) =
      firsts key? known items ++
        firsts key? (known ++ (firsts key? known items).filterMap key?) more := by
  induction items generalizing known with
  | nil => simp [firsts]
  | cons a rest ih =>
    rw [List.cons_append]
    cases ha : key? a with
    | none => simp [firsts_cons_of_none ha, ih, ha]
    | some k =>
      by_cases hk : k ∈ known
      · rw [firsts_cons_of_mem ha hk, firsts_cons_of_mem ha hk, ih]
      · rw [firsts_cons_of_not_mem ha hk, firsts_cons_of_not_mem ha hk, ih, List.cons_append,
          List.filterMap_cons_some ha]
        congr 2
        exact firsts_congr (by simp [or_left_comm]) more

def Apart (key? : α → Option κ) (a b : α) : Prop := ∀ k, key? a = some k → key? b ≠ some k

theorem pairwise_firsts (known : List κ) (items : List α) :
    (firsts key? known items).Pairwise (Apart key?) := by
  induction items generalizing known with
  | nil => exact .nil
  | cons a rest ih =>
    unfold firsts
    split
    · rename_i ha
      refine List.pairwise_cons.2 ⟨fun b _ k hk => ?_, ih known⟩
      rw [ha] at hk
      cases hk
    · rename_i k ha
      split
      · exact ih known
      · refine List.pairwise_cons.2 ⟨fun b hb l hl hbl => ?_, ih _⟩
        obtain rfl := Option.some.inj (ha.symm.trans hl)
        exact not_mem_of_mem_firsts hb hbl List.mem_cons_self

end Firsts

namespace OnceQueue

variable {α κ : Type} [Ord κ]

theorem seen_of_pop? {q q' : OnceQueue α κ} {a : α} (h : q.pop? = some (a, q')) :
    q'.seen = q.seen := by
  unfold pop? at h
  split at h
  · cases h
    rfl
  · split at h <;> cases h
    rfl

variable [Keyed α κ] {key? : α → Option κ}

/-- The keys that the queue knows are those of `gone`, the items that have left it, and of the
items in it. -/
def Remembers (q : OnceQueue α κ) (gone : List α) (key? : α → Option κ := Keyed.key?) : Prop :=
  ∀ k, k ∈ q.seen ↔ ∃ a ∈ gone ++ q.toList, key? a = some k

theorem remembers_empty [Std.TransOrd κ] : (empty : OnceQueue α κ).Remembers [] key? := by
  intro k
  simp [empty, toList]

theorem Remembers.pop {q q' : OnceQueue α κ} {gone : List α} {a : α}
    (h : q.Remembers gone key?) (hp : q.pop? = some (a, q')) :
    q'.Remembers (gone ++ [a]) key? := by
  -- the item moves from the queue to those gone, and its key stays known
  intro k
  rw [seen_of_pop? hp, h k, toList_of_pop? hp]
  simp

def Covers (q : OnceQueue α κ) (gone : List α) (a : α) (key? : α → Option κ := Keyed.key?) :
    Prop :=
  ∃ b ∈ gone ++ q.toList, b = a ∨ ∃ k : κ, key? b = some k ∧ key? a = some k

theorem Covers.mono {q q' : OnceQueue α κ} {gone : List α} {a : α} (h : q.Covers gone a key?)
    (hsub : ∀ b ∈ q.toList, b ∈ q'.toList) : q'.Covers gone a key? := by
  obtain ⟨b, hb, he⟩ := h
  refine ⟨b, ?_, he⟩
  rcases List.mem_append.1 hb with hb | hb
  · exact List.mem_append_left _ hb
  · exact List.mem_append_right _ (hsub b hb)

variable [Std.TransOrd κ] [Std.LawfulEqOrd κ]

/-- Offering an item either changes nothing, as its key is known, or adds it and its key. -/
theorem push_cases (q : OnceQueue α κ) (a : α) (key? : α → Option κ) :
    (∃ k, key? a = some k ∧ k ∈ q.seen ∧ (q.push a key?).2 = q) ∨
      (∀ k, key? a = some k → k ∉ q.seen) ∧ (q.push a key?).2.toList = q.toList ++ [a] ∧
        ∀ k, k ∈ (q.push a key?).2.seen ↔ k ∈ q.seen ∨ key? a = some k := by
  unfold push
  split
  -- an item with no key is always admitted
  · rename_i hk
    exact .inr ⟨by simp [hk], by simp [toList], fun k => by simp [hk]⟩
  · rename_i key hk
    split
    · rename_i hseen
      exact .inl ⟨key, hk, Std.TreeSet.mem_iff_contains.2 hseen, rfl⟩
    · rename_i hseen
      refine .inr ⟨fun k hka => ?_, by simp [toList], fun k => ?_⟩
      · obtain rfl := Option.some.inj (hk.symm.trans hka)
        rwa [Std.TreeSet.mem_iff_contains]
      · rw [Std.TreeSet.mem_insert, hk, Option.some.injEq, Std.compare_eq_iff_eq, or_comm]

theorem Remembers.push {q : OnceQueue α κ} {gone : List α} (h : q.Remembers gone key?) (a : α) :
    (q.push a key?).2.Remembers gone key? ∧ (q.push a key?).2.Covers gone a key? := by
  rcases q.push_cases a key? with ⟨key, hk, hseen, he⟩ | ⟨-, hlist, hseen⟩
  · obtain ⟨b, hb, hkey⟩ := (h key).1 hseen
    rw [he]
    exact ⟨h, b, hb, .inr ⟨key, hkey, hk⟩⟩
  · refine ⟨fun k => ?_, a, by simp [hlist], .inl rfl⟩
    rw [hseen, h k, hlist, ← List.append_assoc]
    simp only [List.mem_append (t := [a]), List.mem_singleton]
    constructor
    · rintro (⟨b, hb, hk⟩ | hk)
      · exact ⟨b, .inl hb, hk⟩
      · exact ⟨a, .inr rfl, hk⟩
    · rintro ⟨b, hb | rfl, hk⟩
      · exact .inl ⟨b, hb, hk⟩
      · exact .inr hk

/-- Of many items that are offered, every one is covered in the end. -/
theorem Remembers.pushAll {q : OnceQueue α κ} {gone : List α} (h : q.Remembers gone key?)
    (items : List α) : (q.pushAll items key?).Remembers gone key? ∧
      ∀ a ∈ items, (q.pushAll items key?).Covers gone a key? := by
  induction items generalizing q with
  | nil => exact ⟨h, by simp⟩
  | cons a rest ih =>
    obtain ⟨hr, hc⟩ := h.push a
    obtain ⟨hr', hc'⟩ := ih hr
    -- the items after it only add to the queue
    obtain ⟨admitted, -, hlist⟩ := (q.push a key?).2.toList_pushAll rest key?
    refine ⟨hr', List.forall_mem_cons.2 ⟨hc.mono fun b hb => ?_, hc'⟩⟩
    change b ∈ ((q.push a key?).2.pushAll rest key?).toList
    rw [hlist]
    exact List.mem_append_left admitted hb

section Keys

variable [DecidableEq κ]

def keys (q : OnceQueue α κ) (gone : List α) (key? : α → Option κ := Keyed.key?) : List κ :=
  (gone ++ q.toList).filterMap key?

omit [Std.TransOrd κ] [Std.LawfulEqOrd κ] [DecidableEq κ] in
theorem Remembers.mem_keys {q : OnceQueue α κ} {gone : List α} (h : q.Remembers gone key?)
    (k : κ) : k ∈ q.keys gone key? ↔ k ∈ q.seen := by
  rw [h k, keys, List.mem_filterMap]

/-- Of many items that are offered, the first of every new key is admitted. -/
theorem Remembers.toList_pushAll {q : OnceQueue α κ} {gone : List α} (h : q.Remembers gone key?)
    (items : List α) :
    (q.pushAll items key?).toList = q.toList ++ firsts key? (q.keys gone key?) items := by
  induction items generalizing q with
  | nil => simp [OnceQueue.pushAll, firsts]
  | cons a rest ih =>
    change ((q.push a key?).2.pushAll rest key?).toList = _
    rw [ih (h.push a).1]
    rcases q.push_cases a key? with ⟨k, hk, hseen, he⟩ | ⟨hnew, hlist, -⟩
    · rw [he, firsts_cons_of_mem hk ((h.mem_keys k).2 hseen)]
    · have hkeys : (q.push a key?).2.keys gone key? = q.keys gone key? ++ (key? a).toList := by
        rw [keys, hlist, ← List.append_assoc, List.filterMap_append, keys]
        cases ha : key? a <;> simp [ha]
      rw [hkeys, hlist, List.append_assoc, List.singleton_append]
      cases ha : key? a with
      | none => rw [firsts_cons_of_none ha, Option.toList_none, List.append_nil]
      | some k =>
        have hk : k ∉ q.keys gone key? := fun hm => hnew k ha ((h.mem_keys k).1 hm)
        rw [firsts_cons_of_not_mem ha hk]
        congr 2
        exact firsts_congr (by simp [or_comm]) rest

def Distinct (q : OnceQueue α κ) (gone : List α) : Prop :=
  (gone ++ q.toList).Pairwise (Apart Keyed.key?)

theorem Distinct.pushAll {q : OnceQueue α κ} {gone : List α} (h : q.Distinct gone)
    (hr : q.Remembers gone) (items : List α) : (q.pushAll items).Distinct gone := by
  rw [Distinct, hr.toList_pushAll, ← List.append_assoc]
  refine List.pairwise_append.2 ⟨h, pairwise_firsts _ items, fun a ha b hb k hk hkb => ?_⟩
  exact not_mem_of_mem_firsts hb hkb (List.mem_filterMap.2 ⟨a, ha, hk⟩)

end Keys

end OnceQueue

end RecordPath
