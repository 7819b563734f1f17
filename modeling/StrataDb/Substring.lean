import StrataDb.BindInsert

/-!
# `SUBSTRING` (`expression/function.rs`: `eval_substr`; `binder/expr.rs`: `bind_substring`)

It is defined by the positions `p` with `start ≤ p < start + length`, in exact integers; clamping
and adding with saturation gives the same positions. For a length that is not given the binder
fills in `i64::MAX`, and from a start far below zero that many do not reach the end of the text.
-/

namespace StrataDb.Sql

def charsWhere (text : String) (P : Int → Prop) [DecidablePred P] : String :=
  .ofList (((text.toList.zipIdx 1).filter fun c => P c.2).map Prod.fst)

/-! ### Positions -/

theorem map_filter_zipIdx {α : Type} (xs : List α) (k lo hi : Nat) :
    ((xs.zipIdx k).filter fun x => lo ≤ x.2 ∧ x.2 < hi).map Prod.fst = (xs.take (hi - k)).drop
    (lo - k) := by
  induction xs generalizing k with
  | nil => simp
  | cons x xs ih =>
    rw [List.zipIdx_cons, List.filter_cons]
    rcases Nat.lt_or_ge k hi with hhi | hhi
    · obtain ⟨m, hm⟩ : ∃ m, hi - k = m + 1 := ⟨hi - k - 1, by omega⟩
      have hm' : hi - (k + 1) = m := by omega
      rcases Nat.lt_or_ge k lo with hlo | hlo
      · obtain ⟨l, hl⟩ : ∃ l, lo - k = l + 1 := ⟨lo - k - 1, by omega⟩
        have hl' : lo - (k + 1) = l := by omega
        rw [if_neg (by simp; omega), ih, hm, hl, hm', hl', List.take_succ_cons, List.drop_succ_cons]
      · have hl : lo - k = 0 := by omega
        have hl' : lo - (k + 1) = 0 := by omega
        rw [if_pos (by simp; omega), List.map_cons, ih, hm, hl, hm', hl', List.take_succ_cons,
          List.drop_zero, List.drop_zero]
    · have hm : hi - k = 0 := by omega
      have hm' : hi - (k + 1) = 0 := by omega
      rw [if_neg (by simp; omega), ih, hm, hm', List.take_zero, List.take_zero, List.drop_nil,
        List.drop_nil]

theorem charsWhere_congr {text : String} {P Q : Int → Prop} [DecidablePred P] [DecidablePred Q]
    (h : ∀ p : Nat, 1 ≤ p → p ≤ text.toList.length → (P p ↔ Q p)) :
    charsWhere text P = charsWhere text Q := by
  have hfilter : (text.toList.zipIdx 1).filter (fun c => P c.2) = (text.toList.zipIdx 1).filter
    fun c => Q c.2 := by
    refine List.filter_congr fun c hc => decide_eq_decide.mpr (h c.2 ?_ ?_)
    · exact List.le_snd_of_mem_zipIdx hc
    · have := List.snd_lt_add_of_mem_zipIdx hc
      omega
  rw [charsWhere, charsWhere, hfilter]

theorem charsWhere_window (text : String) (lo hi : Nat) :
    charsWhere text (fun p => (lo : Int) ≤ p ∧ p < hi) = .ofList
      ((text.toList.take (hi - 1)).drop (lo - 1)) := by
  rw [charsWhere, ← map_filter_zipIdx]
  simp only [Nat.cast_le, Nat.cast_lt]

/-! ### The evaluator -/

theorem integer_of_asI64 {v : Value} {n : Int64} (h : asI64 v = some n) :
    (∃ k, v = .int16 k) ∨ (∃ k, v = .int32 k) ∨ ∃ k, v = .int64 k := by
  cases v with
  | int16 k => exact Or.inl ⟨k, rfl⟩
  | int32 k => exact Or.inr (Or.inl ⟨k, rfl⟩)
  | int64 k => exact Or.inr (Or.inr ⟨k, rfl⟩)
  | _ => cases h

theorem evalSubstr_text {text : String} {from_ len : Value} {start length : Int64}
    (hstart : asI64 from_ = some start) (hlength : asI64 len = some length) :
    evalSubstr (.text text) from_ len = .ok (.text
      (if min (saturatingAdd start length) (text.toList.length + 1) ≤ max start.toInt 1 then ""
      else .ofList
        ((text.toList.take
        (min (saturatingAdd start length) (text.toList.length + 1) - 1).toNat).drop
        (max start.toInt 1 - 1).toNat))) := by
  have hrun : evalSubstr (.text text) from_ len = (do
      let start ← orTypeError "SUBSTRING start must be an integer" (asI64 from_)
      let length ← orTypeError "SUBSTRING length must be an integer" (asI64 len)
      if min (saturatingAdd start length) (text.toList.length + 1) ≤ max start.toInt 1 then
        return .text ""
      return .text
        (.ofList
        ((text.toList.take
        (min (saturatingAdd start length) (text.toList.length + 1) - 1).toNat).drop
        (max start.toInt 1 - 1).toNat))) := by
    obtain ⟨k, rfl⟩ | ⟨k, rfl⟩ | ⟨k, rfl⟩ := integer_of_asI64 hstart <;>
      obtain ⟨l, rfl⟩ | ⟨l, rfl⟩ | ⟨l, rfl⟩ := integer_of_asI64 hlength <;> rfl
  rw [hrun, hstart, hlength]
  split_ifs with hempty
  · exact if_pos hempty
  · exact if_neg hempty

/-- **The evaluator's clamped and saturated bounds are the exact ones.**  A text has fewer
    than `2 ^ 61` characters: they are collected in a vector. -/
theorem evalSubstr_eq {text : String} (hsize : 4 * text.toList.length < 2 ^ 63) {from_ len : Value}
    {start length : Int64} (hstart : asI64 from_ = some start) (hlength : asI64 len = some length) :
    evalSubstr (.text text) from_ len
      = .ok
        (.text (charsWhere text fun p => start.toInt ≤ p ∧ p < start.toInt + length.toInt)) := by
  have hlo := start.le_toInt
  have hhi := start.toInt_lt
  rw [evalSubstr_text hstart hlength, saturatingAdd]
  generalize htoIdx : min (max (-2 ^ 63) (min (2 ^ 63 - 1) (start.toInt + length.toInt)))
    ((text.toList.length : Int) + 1) = toIdx
  have hwindow : charsWhere text (fun p => start.toInt ≤ p ∧ p < start.toInt + length.toInt)
      = .ofList ((text.toList.take (toIdx - 1).toNat).drop (max start.toInt 1 - 1).toNat) := by
    have hbounds : (toIdx - 1).toNat = toIdx.toNat - 1
      ∧ (max start.toInt 1 - 1).toNat = (max start.toInt 1).toNat - 1 := by
      omega
    rw [hbounds.1, hbounds.2, ← charsWhere_window]
    apply charsWhere_congr
    intro p hpos hle
    omega
  rw [hwindow]
  split_ifs with hempty
  · have hnone : (text.toList.take (toIdx - 1).toNat).drop (max start.toInt 1 - 1).toNat = [] := by
      refine List.drop_eq_nil_of_le (Nat.le_trans (List.length_take_le _ _) ?_)
      omega
    rw [hnone]
  · rfl

/-- As many positions as `i64::MAX` reach the end of the text, or do not. -/
theorem charsWhere_maxValue_iff {text : String} (hsize : 4 * text.toList.length < 2 ^ 63)
    (start : Int64) :
    charsWhere text (fun p => start.toInt ≤ p ∧ p < start.toInt + Int64.maxValue.toInt)
        = charsWhere text (start.toInt ≤ ·)
      ↔ text.toList = [] ∨ (text.toList.length : Int) < start.toInt + Int64.maxValue.toInt := by
  have hmax : Int64.maxValue.toInt = 2 ^ 63 - 1 := by decide
  rw [hmax]
  constructor
  · intro heq
    by_contra hnot
    obtain ⟨hne, hlt⟩ := not_or.mp hnot
    have hpos : 0 < text.toList.length := List.length_pos_iff.mpr hne
    -- the start is before the text, so that all of it is asked for
    have hall : charsWhere text (start.toInt ≤ ·) = .ofList text.toList := by
      have hwindow := charsWhere_window text 1 (text.toList.length + 1)
      rw [Nat.add_sub_cancel, Nat.sub_self, List.drop_zero, List.take_length] at hwindow
      rw [← hwindow]
      exact charsWhere_congr fun p hp hle => by omega
    have hcut : charsWhere text (fun p => start.toInt ≤ p ∧ p < start.toInt + (2 ^ 63 - 1))
        = .ofList (text.toList.take ((start.toInt + (2 ^ 63 - 1)).toNat - 1)) := by
      have hwindow := charsWhere_window text 1 (start.toInt + (2 ^ 63 - 1)).toNat
      rw [Nat.sub_self, List.drop_zero] at hwindow
      rw [← hwindow]
      exact charsWhere_congr fun p hp hle => by omega
    rw [hall, hcut] at heq
    have hlength := congrArg (fun t : String => t.toList.length) heq
    simp only [String.toList_ofList, List.length_take] at hlength
    omega
  · rintro (hnil | hlt)
    · exact charsWhere_congr fun p hp hle => absurd hle (by rw [hnil]; simp; omega)
    · exact charsWhere_congr fun p hp hle => by omega

/-! ### The expression -/

theorem eval_substr {rt : Runtime} {tuple : Tuple} {s from_ len : Expr} {vs vf vl : Value}
    (hs : s.eval rt tuple = .ok vs) (hfrom : from_.eval rt tuple = .ok vf)
    (hlen : len.eval rt tuple = .ok vl) :
    (Expr.call .substr [s, from_, len]).eval rt tuple = evalSubstr vs vf vl := by
  simp only [Expr.eval, outcomes, evalCall, argument, hs, hfrom, hlen, List.getElem?_cons_zero,
    List.getElem?_cons_succ]
  rfl

/-- **`SUBSTRING` follows its definition.**  With a length the result is the characters at
    the positions `p` with `start ≤ p < start + length`, for all 64-bit integers; without one
    it is those at all positions from `start` on exactly if the text is empty or
    `start + i64::MAX` is beyond its end. -/
theorem substring_by_positions (rt : Runtime) (scope : Option Scope) (tuple : Tuple) {e f : AstExpr}
    {s from_ : Expr} (hs : e.bind rt scope = .ok s) (hfrom : f.bind rt scope = .ok from_)
    {text : String} {v : Value} {start : Int64} (htext : s.eval rt tuple = .ok (.text text))
    (hvalue : from_.eval rt tuple = .ok v) (hstart : asI64 v = some start)
    (hsize : 4 * text.toList.length < 2 ^ 63) :
    (∀ (l : AstExpr) (len : Expr) (w : Value) (length : Int64), l.bind rt scope = .ok len →
      len.eval rt tuple = .ok w → asI64 w = some length →
      ∃ x, (AstExpr.substring e (some f) (some l)).bind rt scope = .ok x ∧ x.eval rt tuple
        = .ok (.text (charsWhere text fun p => start.toInt ≤ p ∧ p < start.toInt + length.toInt)))
    ∧ ∃ x, (AstExpr.substring e (some f) none).bind rt scope = .ok x
      ∧ (x.eval rt tuple = .ok (.text (charsWhere text (start.toInt ≤ ·)))
        ↔ text.toList = [] ∨ (text.toList.length : Int) < start.toInt + Int64.maxValue.toInt) := by
  constructor
  · intro l len w length hl hw hlength
    refine ⟨.call .substr [s, from_, len], ?_, ?_⟩
    · simp only [AstExpr.bind, bindOption, hs, hfrom, hl]
      rfl
    · rw [eval_substr htext hvalue hw, evalSubstr_eq hsize hstart hlength]
  · refine ⟨.call .substr [s, from_, .literal (.int64 Int64.maxValue)], ?_, ?_⟩
    · simp only [AstExpr.bind, bindOption, hs, hfrom]
      rfl
    · rw [eval_substr htext hvalue rfl, evalSubstr_eq hsize hstart rfl,
        ← charsWhere_maxValue_iff hsize start]
      simp only [Except.ok.injEq, Value.text.injEq]

/-- `SUBSTRING('abc' FROM 1 FOR 1)` and `SUBSTRING('abc' FROM 1)`. -/
theorem substring_by_positions_one :
    (∃ x, (AstExpr.substring (.value (.singleQuotedString "abc")) (some (.value (.number "1")))
        (some (.value (.number "1")))).bind (readsNumber 1) none = .ok x
      ∧ x.eval (readsNumber 1) [] = .ok (.text "a"))
    ∧ ∃ x, (AstExpr.substring (.value (.singleQuotedString "abc")) (some (.value (.number "1")))
      none).bind
        (readsNumber 1) none = .ok x
      ∧ x.eval (readsNumber 1) [] = .ok (.text "abc") := by
  obtain ⟨hfor, x, hbind, hfrom⟩ := @substring_by_positions (readsNumber 1) none []
    (.value (.singleQuotedString "abc")) (.value (.number "1")) (.literal (.text "abc"))
      (.literal (.int64 1))
    rfl rfl "abc" (.int64 1) 1 rfl rfl rfl (by decide)
  constructor
  · exact hfor (.value (.number "1")) (.literal (.int64 1)) (.int64 1) 1 rfl rfl rfl
  · exact ⟨x, hbind, hfrom.mpr (Or.inr (by decide))⟩

/-- `SUBSTRING('abc' FROM -9223372036854775807)` is empty. -/
theorem substring_from_far_below :
    ∃ x, (AstExpr.substring (.value (.singleQuotedString "abc"))
        (some (.unaryOp .minus (.value (.number "9223372036854775807")))) none).bind
          (readsNumber Int64.maxValue) none
        = .ok x
      ∧ x.eval (readsNumber Int64.maxValue) [] = .ok (.text "")
      ∧ charsWhere "abc" ((-9223372036854775807) ≤ ·) = "abc" := by
  exact ⟨_, rfl, rfl, by decide⟩

end StrataDb.Sql
