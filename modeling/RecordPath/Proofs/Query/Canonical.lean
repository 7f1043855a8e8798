import RecordPath.Proofs.Query.Compiled
import RecordPath.Proofs.Query.Floats

namespace RecordPath

section ReadsBack

variable {x : Float}

theorem Expr.readsBack_of_mem_floats {e : Expr} (hw : e.wellFormed = true) (hx : x ∈ e.floats) :
    ReadsBack x := by
  induction e with
  | literal v =>
    cases v with
    | float y =>
      obtain rfl := List.mem_singleton.1 hx
      simp only [wellFormed, Scalar.wellFormed, Bool.and_eq_true, Bool.not_eq_true'] at hw
      exact readsBack_of_isFinite hw.1 hw.2
    | _ => cases hx
  | property name => cases hx
  | call f arguments => cases hx
  | unary op e ih => exact ih hw hx
  | binary op l r ihl ihr =>
    rw [wellFormed, Bool.and_eq_true] at hw
    exact (List.mem_append.1 hx).elim (ihl hw.1) (ihr hw.2)

theorem Query.readsBack_of_mem_floats {q : Query} (hw : q.wellFormed = true) (hx : x ∈ q.floats) :
    ReadsBack x := by
  obtain ⟨p, hp, hx⟩ := List.mem_flatMap.1 hx
  obtain ⟨s, hs, hx⟩ := List.mem_flatMap.1 hx
  simp only [wellFormed, Path.wellFormed, Bool.and_eq_true, List.all_eq_true] at hw
  have hstep := (hw.2 p hp).1.2 s hs
  cases s with
  | key e => exact Expr.readsBack_of_mem_floats hstep hx
  | _ => cases hx

end ReadsBack

namespace Query

/-- The canonical text of a query that was read from some text compiles to the same query. -/
theorem compile_text_of_compile {text : String} {q : Query} (h : compile text = .ok q)
    (hfinite : ∀ x ∈ q.floats, Decimal.isFinite x = true) : compile q.text = .ok q := by
  have hw := wellFormed_of_compile h hfinite
  obtain ⟨ls, htokens, hls⟩ := tokenize_text hw fun x hx => readsBack_of_mem_floats hw hx
  simp only [wellFormed, Bool.and_eq_true, List.all_eq_true, Bool.not_eq_true',
    List.isEmpty_eq_false_iff] at hw
  have hbranches : (Grammar.branches q.text.utf8ByteSize ls).Yields q.branches [] :=
    Grammar.yields_branches_of_tokens hw.1 hw.2 hls
  unfold compile Cursor.ofText
  rw [htokens]
  exact congrArg (Except.map Query.mk) hbranches.1

/-- A number that is written with more digits than it needs. -/
theorem compile_text_of_compile_price :
    let q : Query := ⟨[⟨[.descend, .key (.binary (.compare .less) (.property "price")
      (.literal (.float 2.5)))]⟩]⟩
    compile "//[@price < 02.50]" = .ok q ∧ (∀ x ∈ q.floats, Decimal.isFinite x = true) ∧
      compile q.text = .ok q := by
  intro q
  have h : compile "//[@price < 02.50]" = .ok q := by decide +kernel
  have hfinite : ∀ x ∈ q.floats, Decimal.isFinite x = true := by decide
  exact ⟨h, hfinite, compile_text_of_compile h hfinite⟩

/-- A number with more digits than any double has before its point is read as infinite, and there
is no text for that. -/
theorem not_compile_text_of_overflow :
    let text := String.ofList ('[' :: '1' :: List.replicate 309 '0' ++ ['.', '0', ']'])
    let q : Query := ⟨[⟨[.key (.literal (.float (1 / 0)))]⟩]⟩
    compile text = .ok q ∧ q.text = "[inf.0]" ∧
      compile q.text = .error ⟨.missingBracket, 4⟩ := by
  intro text q
  have htokens : tokenize text = .ok [⟨.symbol .leftBracket, 0⟩, ⟨.float (1 / 0), 1⟩,
      ⟨.symbol .rightBracket, 313⟩] := by
    rw [tokenize, Lexer.ofString, String.toList_ofList]
    decide +kernel
  have hstop : text.utf8ByteSize = 314 := (String.utf8ByteSize_ofList _).trans (by decide +kernel)
  have hcompile : compile text = .ok q := by
    rw [compile, Cursor.ofText, htokens, hstop]
    decide +kernel
  exact ⟨hcompile, by decide +kernel, by decide +kernel⟩

end Query

end RecordPath
