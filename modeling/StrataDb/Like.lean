import StrataDb.ScalarFunction

/-!
# `LIKE` (`crates/strata-db/src/query/expression/function.rs`: `like_match`)

The scan goes back to the last `%` only, which is enough: an earlier one could leave its
characters to the last. But it tries a character as itself first, so a `%` that comes upon a `%`
of the text is taken for that one character (`MeetsPercent`); then `true` is still right, but
`false` may not be.
-/

namespace StrataDb.Sql

open List (drop_drop drop_eq_getElem_cons drop_eq_nil_of_le getElem?_eq_getElem length_drop)

/-! ### What a pattern means -/

/-- A pattern against a whole text. -/
inductive Like : List Char → List Char → Prop
  | nil : Like [] []
  | run {p t : List Char} (cs : List Char) (h : Like p t) : Like ('%' :: p) (cs ++ t)
  | one {p t : List Char} (c : Char) (h : Like p t) : Like ('_' :: p) (c :: t)
  | same {p t : List Char} {c : Char} (h : Like p t) (hrun : c ≠ '%') (hone : c ≠ '_') : Like
    (c :: p) (c :: t)

section Meaning

variable {p t : List Char} {a c : Char}

theorem like_nil_iff : Like [] t ↔ t = [] := by
  constructor
  · intro h
    cases h
    rfl
  · rintro rfl
    exact .nil

theorem like_run_iff : Like ('%' :: p) t ↔ ∃ k ≤ t.length, Like p (t.drop k) := by
  constructor
  · intro h
    cases h with
    | @run _ t cs h => exact ⟨cs.length, by simp, by rwa [List.drop_left]⟩
    | same h hrun => exact absurd rfl hrun
  · rintro ⟨k, -, h⟩
    have hrun := Like.run (t.take k) h
    rwa [List.take_append_drop] at hrun

theorem like_cons_iff (ha : a ≠ '%') : Like (a :: p) (c :: t) ↔ (a = '_' ∨ a = c) ∧ Like p t := by
  constructor
  · intro h
    generalize hu : c :: t = u at h
    cases h with
    | run => exact absurd rfl ha
    | one _ h =>
      obtain ⟨rfl, rfl⟩ := List.cons.inj hu
      exact ⟨Or.inl rfl, h⟩
    | same h =>
      obtain ⟨rfl, rfl⟩ := List.cons.inj hu
      exact ⟨Or.inr rfl, h⟩
  · rintro ⟨ha', h⟩
    by_cases hone : a = '_'
    · subst hone
      exact .one c h
    · obtain rfl := ha'.resolve_left hone
      exact .same h ha hone

theorem not_like_nil (ha : a ≠ '%') : ¬ Like (a :: p) [] := by
  intro h
  generalize ht : ([] : List Char) = t at h
  cases h with
  | run => exact ha rfl
  | one => cases ht
  | same => cases ht

theorem like_empty_iff : Like p [] ↔ p.all (· == '%') = true := by
  induction p with
  | nil => simp [like_nil_iff]
  | cons a p ih =>
    by_cases ha : a = '%'
    · subst ha
      simp [like_run_iff, ih]
    · simp [ha, not_like_nil ha]

theorem Like.absorb {j k : Nat} (h : Like ('%' :: p) (t.drop k)) (hjk : j ≤ k) :
    Like ('%' :: p) (t.drop j) := by
  have hdrop : t.drop k = (t.drop j).drop (k - j) := by rw [drop_drop, Nat.add_sub_cancel' hjk]
  rw [hdrop, like_run_iff] at h
  obtain ⟨i, hi, h⟩ := h
  rw [drop_drop] at h
  rw [like_run_iff]
  by_cases hle : k - j + i ≤ (t.drop j).length
  · exact ⟨k - j + i, hle, h⟩
  · rw [drop_eq_nil_of_le (Nat.le_of_not_le hle)] at h
    exact ⟨(t.drop j).length, Nat.le_refl _, by rwa [List.drop_length]⟩

theorem Like.segment {s : List Char} (hs : '%' ∉ s) (h : Like (s ++ p) t) :
    s.length ≤ t.length ∧ Like p (t.drop s.length) := by
  induction s generalizing t with
  | nil => exact ⟨Nat.zero_le _, h⟩
  | cons a s ih =>
    obtain ⟨ha, hs⟩ := not_or.mp (mt List.mem_cons.mpr hs)
    cases t with
    | nil => exact absurd h (not_like_nil (Ne.symm ha))
    | cons c t =>
      obtain ⟨-, h⟩ := (like_cons_iff (Ne.symm ha)).mp h
      obtain ⟨hle, h⟩ := ih hs h
      exact ⟨Nat.succ_le_succ hle, h⟩

end Meaning

/-! ### The scan -/

/-- The states the scan goes through: the positions in the text and the pattern, the
    position of the last `%` and where its run began. -/
inductive Scan (t p : List Char) : Nat → Nat → Option Nat → Nat → Prop
  | start : Scan t p 0 0 none 0
  | same {ti pi starTi : Nat} {starPi : Option Nat} {a c : Char} (h : Scan t p ti pi starPi starTi)
      (ht : t[ti]? = some c) (hp : p[pi]? = some a) (hac : a = '_' ∨ a = c) : Scan t p (ti + 1)
      (pi + 1) starPi starTi
  | run {ti pi starTi : Nat} {starPi : Option Nat} {c : Char} (h : Scan t p ti pi starPi starTi)
      (ht : t[ti]? = some c) (hp : p[pi]? = some '%') (hc : c ≠ '%') : Scan t p ti (pi + 1)
      (some pi) ti
  | back {ti pi starTi sp : Nat} {c : Char} (h : Scan t p ti pi (some sp) starTi)
    (ht : t[ti]? = some c)
      (hp : ∀ a, p[pi]? = some a → a ≠ '%' ∧ a ≠ '_' ∧ a ≠ c) : Scan t p (starTi + 1) (sp + 1)
      (some sp) (starTi + 1)

/-- The scan comes to a `%` of the pattern and a `%` of the text at once. -/
def MeetsPercent (t p : List Char) : Prop :=
  ∃ ti pi starPi starTi, Scan t p ti pi starPi starTi ∧ t[ti]? = some '%' ∧ p[pi]? = some '%'

/-- What is left to be matched from a state: the rest from here, or the rest after the last
    `%` from a later place. -/
def Live (t p : List Char) (ti pi : Nat) (starPi : Option Nat) (starTi : Nat) : Prop :=
  Like (p.drop pi) (t.drop ti) ∨
    ∃ sp, starPi = some sp ∧ ∃ k, starTi < k ∧ k ≤ t.length ∧ Like (p.drop (sp + 1)) (t.drop k)

/-- Since the last `%` the scan went over equally many characters of both, with no `%` in
    the pattern. -/
structure Stretch (p : List Char) (ti pi sp starTi : Nat) : Prop where
  step : pi + starTi = ti + (sp + 1)
  start : sp + 1 ≤ pi
  inside : pi ≤ p.length
  plain : '%' ∉ (p.drop (sp + 1)).take (pi - (sp + 1))

section States

variable {t p : List Char} {ti pi starTi : Nat} {starPi : Option Nat} {a c : Char}

theorem drop_of_getElem? {xs : List Char} {i : Nat} {x : Char} (h : xs[i]? = some x) :
    xs.drop i = x :: xs.drop (i + 1) := by
  obtain ⟨hi, rfl⟩ := List.getElem?_eq_some_iff.mp h
  exact drop_eq_getElem_cons hi

theorem live_same (ht : t[ti]? = some c) (hp : p[pi]? = some a) (ha : a ≠ '%')
    (hac : a = '_' ∨ a = c) :
    Live t p (ti + 1) (pi + 1) starPi starTi ↔ Live t p ti pi starPi starTi := by
  rw [Live, Live, drop_of_getElem? ht, drop_of_getElem? hp, like_cons_iff ha, and_iff_right hac]

theorem live_run (hstretch : ∀ sp, starPi = some sp → Stretch p ti pi sp starTi)
    (hti : ti < t.length) (hp : p[pi]? = some '%') :
    Live t p ti (pi + 1) (some pi) ti ↔ Live t p ti pi starPi starTi := by
  have hnew : Live t p ti (pi + 1) (some pi) ti ↔ Like (p.drop pi) (t.drop ti) := by
    rw [drop_of_getElem? hp, like_run_iff]
    constructor
    · rintro (h | ⟨sp, hsp, k, hk, hle, h⟩)
      · exact ⟨0, Nat.zero_le _, h⟩
      · obtain rfl := Option.some.inj hsp
        refine ⟨k - ti, by rw [length_drop]; omega, ?_⟩
        rwa [drop_drop, Nat.add_sub_cancel' hk.le]
    · rintro ⟨k, hk, h⟩
      rw [length_drop] at hk
      rw [drop_drop] at h
      rcases Nat.eq_zero_or_pos k with rfl | hpos
      · exact Or.inl h
      · exact Or.inr ⟨pi, rfl, ti + k, by omega, by omega, h⟩
  rw [hnew, Live]
  refine ⟨Or.inl, ?_⟩
  rintro (h | ⟨sp, rfl, k, hk, -, h⟩)
  · exact h
  · obtain ⟨hstep, hstart, hinside, hplain⟩ := hstretch sp rfl
    -- what stands between the two `%`s matches a stretch of the text
    have hsplit : p.drop (sp + 1) = (p.drop (sp + 1)).take (pi - (sp + 1)) ++ p.drop pi := by
      have hdrop := List.take_append_drop (pi - (sp + 1)) (p.drop (sp + 1))
      rw [drop_drop, Nat.add_sub_cancel' hstart] at hdrop
      exact hdrop.symm
    rw [hsplit] at h
    have hrest := (h.segment hplain).2
    have hlength : ((p.drop (sp + 1)).take (pi - (sp + 1))).length = pi - (sp + 1) := by
      rw [List.length_take, length_drop]
      omega
    rw [hlength, drop_drop, drop_of_getElem? hp] at hrest
    rw [drop_of_getElem? hp]
    exact hrest.absorb (by omega)

theorem live_of_back {sp : Nat} (hle : starTi + 1 ≤ t.length)
    (h : Live t p (starTi + 1) (sp + 1) (some sp) (starTi + 1)) :
    Live t p ti pi (some sp) starTi := by
  rcases h with h | ⟨_, hsp, k, hk, hkt, h⟩
  · exact Or.inr ⟨sp, rfl, starTi + 1, Nat.lt_succ_self _, hle, h⟩
  · obtain rfl := Option.some.inj hsp
    exact Or.inr ⟨sp, rfl, k, by omega, hkt, h⟩

theorem live_back {sp : Nat} (hle : starTi + 1 ≤ t.length) (hnot : ¬ Like (p.drop pi) (t.drop ti)) :
    Live t p (starTi + 1) (sp + 1) (some sp) (starTi + 1) ↔ Live t p ti pi (some sp) starTi := by
  refine ⟨live_of_back hle, ?_⟩
  rintro (h | ⟨_, hsp, k, hk, hkt, h⟩)
  · exact absurd h hnot
  · obtain rfl := Option.some.inj hsp
    rcases Nat.eq_or_lt_of_le (Nat.succ_le_of_lt hk) with rfl | hlt
    · exact Or.inl h
    · exact Or.inr ⟨sp, rfl, k, hlt, hkt, h⟩

theorem live_end (hstretch : ∀ sp, starPi = some sp → Stretch p ti pi sp starTi)
    (hti : t.length ≤ ti) : Live t p ti pi starPi starTi ↔ (p.drop pi).all (· == '%') = true := by
  rw [← like_empty_iff, Live, drop_eq_nil_of_le hti]
  refine ⟨?_, Or.inl⟩
  rintro (h | ⟨sp, rfl, k, hk, hkt, h⟩)
  · exact h
  · obtain ⟨hstep, hstart, hinside, hplain⟩ := hstretch sp rfl
    have hshort := (List.take_append_drop (pi - (sp + 1)) (p.drop (sp + 1)) ▸ h).segment hplain |>.1
    rw [List.length_take, length_drop, length_drop] at hshort
    omega

theorem Stretch.same {sp : Nat} (h : Stretch p ti pi sp starTi) (hp : p[pi]? = some a)
    (ha : a ≠ '%') : Stretch p (ti + 1) (pi + 1) sp starTi := by
  obtain ⟨hstep, hstart, -, hplain⟩ := h
  obtain ⟨hpi, hget⟩ := List.getElem?_eq_some_iff.mp hp
  refine ⟨by omega, Nat.le_succ_of_le hstart, hpi, ?_⟩
  have hlast : (p.drop (sp + 1))[pi - (sp + 1)]? = some a := by
    rw [List.getElem?_drop, Nat.add_sub_cancel' hstart, hp]
  rw [Nat.succ_sub hstart, List.take_add_one, hlast]
  simpa using ⟨hplain, Ne.symm ha⟩

theorem stretch_new {sp : Nat} (hsp : sp < p.length) (ti : Nat) : Stretch p ti (sp + 1) sp ti :=
  ⟨Nat.add_comm _ _, Nat.le_refl _, hsp, by simp⟩

end States

/-- **The scan decides what is left**, unless it takes a `%` for itself. -/
theorem likeLoop_iff {t p : List Char} (hmeets : ¬ MeetsPercent t p) (ti pi : Nat)
    (starPi : Option Nat) (starTi : Nat) (h : starTi ≤ ti) (hscan : Scan t p ti pi starPi starTi)
    (hstretch : ∀ sp, starPi = some sp → Stretch p ti pi sp starTi) :
    likeLoop t p ti pi starPi starTi h = true ↔ Live t p ti pi starPi starTi := by
  fun_induction likeLoop t p ti pi starPi starTi h with
  | case1 ti pi starPi starTi h hti hpi hac ih =>
    have ht : t[ti]? = some t[ti] := getElem?_eq_getElem hti
    have hp : p[pi]? = some p[pi] := getElem?_eq_getElem hpi
    -- a `%` taken for itself would be a meeting
    have ha : p[pi] ≠ '%' := by
      intro ha
      rw [ha] at hp hac
      have hc : t[ti] = '%' := (hac.resolve_left (by decide)).symm
      exact hmeets ⟨ti, pi, starPi, starTi, hscan, by rw [ht, hc], hp⟩
    rw [ih (hscan.same ht hp hac) fun sp hsp => (hstretch sp hsp).same hp ha]
    exact live_same ht hp ha hac
  | case2 ti pi starPi starTi h hti hpi hac ha ih =>
    have hp : p[pi]? = some '%' := (getElem?_eq_getElem hpi).trans (congrArg some ha)
    have hc : t[ti] ≠ '%' := fun hc => hac (Or.inr (ha.trans hc.symm))
    rw [ih (hscan.run (getElem?_eq_getElem hti) hp hc) fun sp hsp => ?_]
    · exact live_run hstretch hti hp
    · obtain rfl := Option.some.inj hsp
      exact stretch_new hpi ti
  | case3 ti pi starTi h hti hpi hac ha sp ih =>
    have hback : Scan t p (starTi + 1) (sp + 1) (some sp) (starTi + 1) := by
      refine hscan.back (getElem?_eq_getElem hti) fun a hp => ?_
      obtain rfl := Option.some.inj ((getElem?_eq_getElem hpi).symm.trans hp)
      exact ⟨ha, not_or.mp hac⟩
    have hnot : ¬ Like (p.drop pi) (t.drop ti) := by
      rw [drop_eq_getElem_cons hpi, drop_eq_getElem_cons hti, like_cons_iff ha]
      exact fun hlike => hac hlike.1
    rw [ih hback fun sp' hsp => ?_]
    · exact live_back (by omega) hnot
    · obtain rfl := Option.some.inj hsp
      exact stretch_new (by have := (hstretch sp rfl).start; omega) _
  | case4 ti pi starTi h hti hpi hac ha =>
    refine iff_of_false Bool.false_ne_true ?_
    rintro (hlike | ⟨sp, hsp, -⟩)
    · rw [drop_eq_getElem_cons hpi, drop_eq_getElem_cons hti, like_cons_iff ha] at hlike
      exact hac hlike.1
    · cases hsp
  | case5 ti pi starTi h hti hpi sp ih =>
    have hback : Scan t p (starTi + 1) (sp + 1) (some sp) (starTi + 1) := by
      refine hscan.back (getElem?_eq_getElem hti) fun a hp => ?_
      exact absurd (List.getElem?_eq_some_iff.mp hp).1 hpi
    have hnot : ¬ Like (p.drop pi) (t.drop ti) := by
      rw [drop_eq_nil_of_le (Nat.le_of_not_lt hpi), like_nil_iff, List.drop_eq_nil_iff]
      omega
    rw [ih hback fun sp' hsp => ?_]
    · exact live_back (by omega) hnot
    · obtain rfl := Option.some.inj hsp
      exact stretch_new
        (by have := (hstretch sp rfl).start; have := (hstretch sp rfl).inside; omega) _
  | case6 ti pi starTi h hti hpi =>
    refine iff_of_false Bool.false_ne_true ?_
    rintro (hlike | ⟨sp, hsp, -⟩)
    · rw [drop_eq_nil_of_le (Nat.le_of_not_lt hpi), like_nil_iff, List.drop_eq_nil_iff] at hlike
      omega
    · cases hsp
  | case7 ti pi starPi starTi h hti => exact (live_end hstretch (Nat.le_of_not_lt hti)).symm

/-- Where the scan says `true`, the rest matches: a `%` taken for itself is a run of one. -/
theorem live_of_likeLoop {t p : List Char} {ti pi : Nat} {starPi : Option Nat} {starTi : Nat}
    {h : starTi ≤ ti} (hloop : likeLoop t p ti pi starPi starTi h = true) :
    Live t p ti pi starPi starTi := by
  fun_induction likeLoop t p ti pi starPi starTi h with
  | case1 ti pi starPi starTi h hti hpi hac ih =>
    rcases ih hloop with hlike | hstar
    · refine Or.inl ?_
      rw [drop_eq_getElem_cons hpi, drop_eq_getElem_cons hti]
      by_cases ha : p[pi] = '%'
      · rw [ha]
        exact .run [t[ti]] hlike
      · exact (like_cons_iff ha).mpr ⟨hac, hlike⟩
    · exact Or.inr hstar
  | case2 ti pi starPi starTi h hti hpi hac ha ih =>
    have hp : p[pi]? = some '%' := (getElem?_eq_getElem hpi).trans (congrArg some ha)
    -- as if there had been no `%` before
    exact Or.inl (((@live_run t p ti pi ti none (by simp) hti hp).mp (ih hloop)).resolve_right
      (by simp))
  | case3 ti pi starTi h hti hpi hac ha sp ih => exact live_of_back (by omega) (ih hloop)
  | case4 => cases hloop
  | case5 ti pi starTi h hti hpi sp ih => exact live_of_back (by omega) (ih hloop)
  | case6 => cases hloop
  | case7 ti pi starPi starTi h hti =>
    refine Or.inl ?_
    rw [drop_eq_nil_of_le (Nat.le_of_not_lt hti), like_empty_iff]
    exact hloop

theorem not_meets_of_text {t p : List Char} (h : '%' ∉ t) : ¬ MeetsPercent t p := by
  rintro ⟨ti, _, _, _, -, ht, -⟩
  exact h (List.mem_of_getElem? ht)

/-- **What `like_match` decides.**  A text it accepts matches the pattern, and it accepts the
    texts that match, unless its scan meets a `%` of the text at a `%` of the pattern. -/
theorem like_match_decides (text pattern : String) :
    (likeMatch text pattern = true → Like pattern.toList text.toList) ∧
      (¬ MeetsPercent text.toList pattern.toList → (likeMatch text pattern = true
        ↔ Like pattern.toList text.toList)) := by
  have hlive : Live text.toList pattern.toList 0 0 none 0 ↔ Like pattern.toList text.toList := by
    simp [Live]
  constructor
  · intro hmatch
    exact hlive.mp (live_of_likeLoop hmatch)
  · intro hmeets
    rw [likeMatch, likeLoop_iff hmeets 0 0 none 0 _ .start (by simp), hlive]

/-- `'abc' LIKE 'a%c'`. -/
theorem like_match_decides_abc :
    ¬ MeetsPercent "abc".toList "a%c".toList ∧ likeMatch "abc" "a%c" = true := by
  have hmeets : ¬ MeetsPercent "abc".toList "a%c".toList := not_meets_of_text (by decide)
  exact ⟨hmeets, ((like_match_decides "abc" "a%c").2 hmeets).mpr
    (.same (.run ['b'] (.same .nil (by decide) (by decide))) (by decide) (by decide))⟩

/-- `'%a' LIKE '%'` is false: the `%` of the pattern is taken for that of the text. -/
theorem like_match_percent : likeMatch "%a" "%" = false ∧ Like "%".toList "%a".toList := by
  refine ⟨?_, .run ['%', 'a'] .nil⟩
  simp [likeMatch, likeLoop]

end StrataDb.Sql
