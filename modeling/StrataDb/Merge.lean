import Mathlib.Tactic

/-!
# K-way merge

The smallest head is taken, among equal ones that of the earlier source. Of the comparison it is
asked that "less" is the strict order of some rank. The merge of ascending sources is an ascending
rearrangement of all of them, and items of one rank stay in the order of the sources.
-/

namespace StrataDb.Merge

open List (Perm mem_cons)

section Definitions

variable {α : Type} (cmp : α → α → Ordering)

/-- One pass over the heads, from source `i` on: the position and value of the
    smallest so far, replaced only by a strictly smaller one. -/
def minHead : Nat → Option (Nat × α) → List (List α) → Option (Nat × α)
  | _, best, [] => best
  | i, best, [] :: rest => minHead (i + 1) best rest
  | i, none, (a :: _) :: rest => minHead (i + 1) (some (i, a)) rest
  | i, some (j, b), (a :: _) :: rest =>
    if cmp a b = .lt then minHead (i + 1) (some (i, a)) rest
    else minHead (i + 1) (some (j, b)) rest

def next (sources : List (List α)) : Option (α × List (List α)) :=
  match minHead cmp 0 none sources with
  | none => none
  | some (i, a) => some (a, sources.modify i List.tail)

def mergeLoop : Nat → List (List α) → List α
  | 0, _ => []
  | fuel + 1, sources =>
    match next cmp sources with
    | none => []
    | some (a, rest) => a :: mergeLoop fuel rest

def merge (sources : List (List α)) : List α := mergeLoop cmp sources.flatten.length sources

end Definitions

section Laws

variable {α O : Type} [LinearOrder O] {cmp : α → α → Ordering} {rank : α → O}

variable {sources : List (List α)} {best : Option (Nat × α)}

theorem minHead_eq_none {i : Nat}
    (h : minHead cmp i best sources = none) : best = none ∧ ∀ s ∈ sources, s = [] := by
  induction sources generalizing i best with
  | nil => exact ⟨h, by simp⟩
  | cons s rest ih =>
    cases s with
    | nil =>
      obtain ⟨hbest, hrest⟩ := ih h
      exact ⟨hbest, by simpa using hrest⟩
    | cons a t =>
      cases best with
      | none => cases (ih h).1
      | some jb =>
        rw [minHead] at h
        split_ifs at h <;> cases (ih h).1

variable {a : α}

theorem minHead_eq_some (hcmp : ∀ a b, cmp a b = .lt ↔ rank a < rank b) {i j : Nat}
    (h : minHead cmp i best sources = some (j, a)) :
    (best = some (j, a) ∨ ∃ n t, j = i + n ∧ sources[n]? = some (a :: t)) ∧
      (∀ b, best = some b → rank a ≤ rank b.2) ∧
      (∀ x t, (x :: t) ∈ sources → rank a ≤ rank x) := by
  induction sources generalizing i best with
  | nil =>
    rw [minHead] at h
    subst h
    exact ⟨Or.inl rfl, by simp, by simp⟩
  | cons s rest ih =>
    -- a head found further on is one position further on here
    have hshift : (∃ n t, j = i + 1 + n ∧ rest[n]? = some (a :: t)) →
        ∃ n t, j = i + n ∧ (s :: rest)[n]? = some (a :: t) := by
      rintro ⟨n, t, hj, ht⟩
      exact ⟨n + 1, t, by omega, by simpa using ht⟩
    cases s with
    | nil =>
      rw [minHead] at h
      obtain ⟨hfrom, hbest, hheads⟩ := ih h
      exact ⟨hfrom.imp id hshift, hbest, by simpa using hheads⟩
    | cons y ys =>
      have hself : ∃ n t, i = i + n ∧ ((y :: ys) :: rest)[n]? = some (y :: t) :=
        ⟨0, ys, by omega, rfl⟩
      cases best with
      | none =>
        rw [minHead] at h
        obtain ⟨hfrom, hbest, hheads⟩ := ih h
        have hy : rank a ≤ rank y := hbest _ rfl
        refine ⟨Or.inr ?_, by simp, ?_⟩
        · rcases hfrom with hfrom | hfrom
          · cases hfrom
            exact hself
          · exact hshift hfrom
        · intro x t hx
          rcases mem_cons.mp hx with hx | hx
          · cases hx
            exact hy
          · exact hheads x t hx
      | some jb =>
        obtain ⟨j', b⟩ := jb
        rw [minHead] at h
        split_ifs at h with hlt
        · obtain ⟨hfrom, hbest, hheads⟩ := ih h
          have hy : rank a ≤ rank y := hbest _ rfl
          refine ⟨Or.inr ?_, ?_, ?_⟩
          · rcases hfrom with hfrom | hfrom
            · cases hfrom
              exact hself
            · exact hshift hfrom
          · rintro _ ⟨⟩
            exact hy.trans ((hcmp y b).mp hlt).le
          · intro x t hx
            rcases mem_cons.mp hx with hx | hx
            · cases hx
              exact hy
            · exact hheads x t hx
        · obtain ⟨hfrom, hbest, hheads⟩ := ih h
          have hb : rank a ≤ rank b := hbest _ rfl
          refine ⟨hfrom.imp id hshift, ?_, ?_⟩
          · rintro _ ⟨⟩
            exact hb
          · intro x t hx
            rcases mem_cons.mp hx with hx | hx
            · cases hx
              exact hb.trans (not_lt.mp (fun hlt' => hlt ((hcmp _ _).mpr hlt')))
            · exact hheads x t hx

theorem perm_flatten_modify_tail {n : Nat} {t : List α} (h : sources[n]? = some (a :: t)) :
    Perm sources.flatten (a :: (sources.modify n List.tail).flatten) := by
  induction sources generalizing n with
  | nil => simp at h
  | cons s rest ih =>
    cases n with
    | zero =>
      simp only [List.getElem?_cons_zero, Option.some.injEq] at h
      subst h
      simp
    | succ n =>
      have hrest := ih (by simpa using h)
      simp only [List.flatten_cons, List.modify_succ_cons]
      exact (hrest.append_left s).trans List.perm_middle

def Sorted (rank : α → O) (sources : List (List α)) : Prop :=
  ∀ s ∈ sources, s.Pairwise (fun a b => rank a ≤ rank b)

theorem Sorted.modify_tail (h : Sorted rank sources) (n : Nat) :
    Sorted rank (sources.modify n List.tail) := by
  induction sources generalizing n with
  | nil => simpa using h
  | cons s rest ih =>
    have hs := h s List.mem_cons_self
    have hrest : Sorted rank rest := fun x hx => h x (List.mem_cons_of_mem _ hx)
    cases n with
    | zero =>
      intro x hx
      rcases mem_cons.mp hx with rfl | hx
      · exact hs.tail
      · exact hrest x hx
    | succ n =>
      intro x hx
      rcases mem_cons.mp hx with rfl | hx
      · exact hs
      · exact ih hrest n x hx

theorem next_eq_none (h : next cmp sources = none) : sources.flatten = [] := by
  unfold next at h
  split at h
  · rename_i hmin
    exact List.flatten_eq_nil_iff.mpr (minHead_eq_none hmin).2
  · cases h

variable {rest : List (List α)}

theorem next_perm (hcmp : ∀ a b, cmp a b = .lt ↔ rank a < rank b)
    (h : next cmp sources = some (a, rest)) : Perm sources.flatten (a :: rest.flatten) := by
  unfold next at h
  split at h
  · cases h
  · rename_i i b hmin
    cases h
    obtain ⟨n, t, hn, ht⟩ := (minHead_eq_some hcmp hmin).1.resolve_left (by simp)
    obtain rfl : i = n := by omega
    exact perm_flatten_modify_tail ht

/-- **The merge yields items of its sources**, sorted or not. -/
theorem mem_of_mem_merge (hcmp : ∀ a b, cmp a b = .lt ↔ rank a < rank b) {x : α}
    (h : x ∈ merge cmp sources) : ∃ s ∈ sources, x ∈ s := by
  have hloop : ∀ fuel (sources : List (List α)), ∀ x ∈ mergeLoop cmp fuel sources,
    x ∈ sources.flatten := by
    intro fuel
    induction fuel with
    | zero => simp [mergeLoop]
    | succ fuel ih =>
      intro sources x hx
      rw [mergeLoop] at hx
      split at hx
      · cases hx
      · rename_i a rest hsome
        refine (next_perm hcmp hsome).symm.subset ?_
        exact (mem_cons.mp hx).elim (· ▸ List.mem_cons_self) fun hx => List.mem_cons_of_mem _
          (ih rest x hx)
  exact List.mem_flatten.mp (hloop _ _ x h)

/-- **One round.**  The item taken is a smallest one of all that are left. -/
theorem next_eq_some (hcmp : ∀ a b, cmp a b = .lt ↔ rank a < rank b) (hsorted : Sorted rank sources)
    (h : next cmp sources = some (a, rest)) :
    Perm sources.flatten (a :: rest.flatten) ∧ Sorted rank rest ∧
      ∀ x ∈ sources.flatten, rank a ≤ rank x := by
  have hperm := next_perm hcmp h
  unfold next at h
  split at h
  · cases h
  · rename_i i b hmin
    cases h
    obtain ⟨-, -, hheads⟩ := minHead_eq_some hcmp hmin
    refine ⟨hperm, hsorted.modify_tail i, ?_⟩
    intro x hx
    obtain ⟨s, hs, hxs⟩ := List.mem_flatten.mp hx
    -- a source is sorted, so its head is its smallest item
    cases s with
    | nil => cases hxs
    | cons y ys =>
      have hy := hheads y ys hs
      rcases mem_cons.mp hxs with rfl | hxs
      · exact hy
      · exact hy.trans (List.rel_of_pairwise_cons (hsorted _ hs) hxs)

theorem mergeLoop_spec (hcmp : ∀ a b, cmp a b = .lt ↔ rank a < rank b) {fuel : Nat}
    (hsorted : Sorted rank sources) (hfuel : sources.flatten.length ≤ fuel) :
    Perm (mergeLoop cmp fuel sources) sources.flatten ∧
      (mergeLoop cmp fuel sources).Pairwise (fun a b => rank a ≤ rank b) := by
  induction fuel generalizing sources with
  | zero =>
    have hnil : sources.flatten = [] := List.length_eq_zero_iff.mp (by omega)
    rw [hnil]
    exact ⟨List.Perm.refl _, List.Pairwise.nil⟩
  | succ fuel ih =>
    rw [mergeLoop]
    split
    · rename_i hnone
      rw [next_eq_none hnone]
      exact ⟨List.Perm.refl _, List.Pairwise.nil⟩
    · rename_i a rest hsome
      obtain ⟨hperm, hrest, hmin⟩ := next_eq_some hcmp hsorted hsome
      have hlen := hperm.length_eq
      rw [List.length_cons] at hlen
      obtain ⟨hperm', hsorted'⟩ := ih hrest (by omega)
      refine ⟨(hperm'.cons a).trans hperm.symm, List.pairwise_cons.mpr ⟨?_, hsorted'⟩⟩
      intro x hx
      exact hmin x (hperm.symm.subset (List.mem_cons_of_mem a (hperm'.subset hx)))

theorem merge_perm (hcmp : ∀ a b, cmp a b = .lt ↔ rank a < rank b)
    (hsorted : Sorted rank sources) : Perm (merge cmp sources) sources.flatten :=
  (mergeLoop_spec hcmp hsorted (Nat.le_refl _)).1

theorem merge_sorted (hcmp : ∀ a b, cmp a b = .lt ↔ rank a < rank b)
    (hsorted : Sorted rank sources) :
    (merge cmp sources).Pairwise (fun a b => rank a ≤ rank b) :=
  (mergeLoop_spec hcmp hsorted (Nat.le_refl _)).2

theorem minHead_map {β : Type} {cmp' : β → β → Ordering} {f : α → β}
    (hf : ∀ a b, cmp' (f a) (f b) = cmp a b) {sources : List (List α)} {sources' : List (List β)}
    (h : List.Forall₂ (fun s s' => s'.head? = s.head?.map f) sources sources') (i : Nat)
    (best : Option (Nat × α)) :
    minHead cmp' i (best.map (Prod.map id f)) sources'
      = (minHead cmp i best sources).map (Prod.map id f) := by
  induction h generalizing i best with
  | nil => rfl
  | @cons s s' rest rest' hhead _ ih =>
    cases s with
    | nil =>
      obtain rfl : s' = [] := List.head?_eq_none_iff.mp hhead
      exact ih (i + 1) best
    | cons a t =>
      obtain ⟨t', rfl⟩ : ∃ t', s' = f a :: t' := by
        cases s' with
        | nil => cases hhead
        | cons b t' => exact ⟨t', by rw [Option.some.inj hhead]⟩
      cases best with
      | none => exact ih (i + 1) (some (i, a))
      | some jb =>
        obtain ⟨j, b⟩ := jb
        simp only [Option.map_some, Prod.map, minHead, hf]
        split_ifs
        · exact ih (i + 1) (some (i, a))
        · exact ih (i + 1) (some (j, b))

/-! ### Items of one rank stay in order -/

theorem minHead_lt (hcmp : ∀ a b, cmp a b = .lt ↔ rank a < rank b) {i j : Nat}
    (h : minHead cmp i best sources = some (j, a)) :
    best = some (j, a) ∨ (∀ b, best = some b → rank a < rank b.2) ∧
      ∀ n x t, sources[n]? = some (x :: t) → i + n < j → rank a < rank x := by
  induction sources generalizing i best with
  | nil => exact Or.inl h
  | cons s rest ih =>
    cases s with
    | nil =>
      rw [minHead] at h
      refine (ih h).imp id (And.imp_right fun hrest n x t hn hlt => ?_)
      cases n with
      | zero => cases hn
      | succ n => exact hrest n x t (by simpa using hn) (by omega)
    | cons y ys =>
      -- whether `y` becomes the best or not, the rest of the pass has `m` as its best
      have hpass : ∀ m : Nat × α, minHead cmp (i + 1) (some m) rest = some (j, a) →
          m = (j, a) ∨ rank a < rank m.2 ∧
            ∀ n x t, rest[n]? = some (x :: t) → i + 1 + n < j → rank a < rank x := by
        intro m hm
        rcases ih hm with heq | ⟨hbest, hrest⟩
        · exact Or.inl (Option.some.inj heq)
        · exact Or.inr ⟨hbest m rfl, hrest⟩
      have hshift : rank a < rank y →
          (∀ n x t, rest[n]? = some (x :: t) → i + 1 + n < j → rank a < rank x) →
          ∀ n x t, ((y :: ys) :: rest)[n]? = some (x :: t) → i + n < j → rank a < rank x := by
        intro hy hrest n x t hn hlt
        cases n with
        | zero =>
          cases hn
          exact hy
        | succ n => exact hrest n x t (by simpa using hn) (by omega)
      cases best with
      | none =>
        rw [minHead] at h
        refine Or.inr ⟨nofun, ?_⟩
        rcases hpass (i, y) h with heq | ⟨hy, hrest⟩
        · cases heq
          intro n x t _ hlt
          omega
        · exact hshift hy hrest
      | some jb =>
        obtain ⟨j', b⟩ := jb
        rw [minHead] at h
        split_ifs at h with hlt
        · have hyb := (hcmp y b).mp hlt
          refine Or.inr ?_
          rcases hpass (i, y) h with heq | ⟨hy, hrest⟩
          · cases heq
            refine ⟨by rintro _ ⟨⟩; exact hyb, fun n x t _ hlt => by omega⟩
          · exact ⟨by rintro _ ⟨⟩; exact hy.trans hyb, hshift hy hrest⟩
        · have hby : rank b ≤ rank y := not_lt.mp fun hlt' => hlt ((hcmp y b).mpr hlt')
          rcases hpass (j', b) h with heq | ⟨hb, hrest⟩
          · exact Or.inl (congrArg some heq)
          · exact Or.inr ⟨by rintro _ ⟨⟩; exact hb, hshift (hb.trans_le hby) hrest⟩

theorem filter_flatten_modify_tail {n : Nat} {t : List α} (h : sources[n]? = some (a :: t))
    (hbefore : ∀ m < n, ∀ s, sources[m]? = some s → ∀ x ∈ s, rank x ≠ rank a) (o : O) :
    sources.flatten.filter (fun x => rank x = o)
      = (a :: (sources.modify n List.tail).flatten).filter (fun x => rank x = o) := by
  induction sources generalizing n with
  | nil => simp at h
  | cons s rest ih =>
    cases n with
    | zero =>
      simp only [List.getElem?_cons_zero, Option.some.injEq] at h
      subst h
      simp
    | succ n =>
      have hrest := ih (by simpa using h) fun m hm s' hs' =>
        hbefore (m + 1) (by omega) s' (by simpa using hs')
      have hs : rank a = o → s.filter (fun x => rank x = o) = [] := by
        rintro rfl
        rw [List.filter_eq_nil_iff]
        intro x hx
        simpa using hbefore 0 (by omega) s rfl x hx
      rw [List.flatten_cons, List.modify_succ_cons, List.flatten_cons, List.filter_append, hrest]
      by_cases ho : rank a = o
      · simp [ho, hs ho]
      · simp [ho]

theorem filter_next (hcmp : ∀ a b, cmp a b = .lt ↔ rank a < rank b) (hsorted : Sorted rank sources)
    (h : next cmp sources = some (a, rest)) (o : O) :
    sources.flatten.filter (fun x => rank x = o)
      = (a :: rest.flatten).filter (fun x => rank x = o) := by
  unfold next at h
  split at h
  · cases h
  · rename_i i b hmin
    cases h
    obtain ⟨n, t, hn, ht⟩ := (minHead_eq_some hcmp hmin).1.resolve_left (by simp)
    obtain rfl : i = n := by omega
    -- the sources before have only larger items
    have hearlier := ((minHead_lt hcmp hmin).resolve_left nofun).2
    refine filter_flatten_modify_tail ht (fun m hm s hs x hx => ?_) o
    cases s with
    | nil => cases hx
    | cons y ys =>
      have hy := hearlier m y ys hs (by omega)
      rcases mem_cons.mp hx with rfl | hx
      · exact hy.ne'
      · exact (hy.trans_le (List.rel_of_pairwise_cons (hsorted _ (List.mem_of_getElem? hs)) hx)).ne'

/-- **Of items of one rank, those of earlier sources come first**, each source's in its
    own order. -/
theorem filter_mergeLoop (hcmp : ∀ a b, cmp a b = .lt ↔ rank a < rank b) {fuel : Nat}
    (hsorted : Sorted rank sources) (hfuel : sources.flatten.length ≤ fuel) (o : O) :
    (mergeLoop cmp fuel sources).filter (fun x => rank x = o)
      = sources.flatten.filter (fun x => rank x = o) := by
  induction fuel generalizing sources with
  | zero =>
    have hnil : sources.flatten = [] := List.length_eq_zero_iff.mp (by omega)
    rw [hnil]
    rfl
  | succ fuel ih =>
    rw [mergeLoop]
    split
    · rename_i hnone
      rw [next_eq_none hnone]
    · rename_i a rest hsome
      obtain ⟨hperm, hrest, -⟩ := next_eq_some hcmp hsorted hsome
      have hlen := hperm.length_eq
      rw [List.length_cons] at hlen
      rw [filter_next hcmp hsorted hsome, List.filter_cons, List.filter_cons, ih hrest (by omega)]

end Laws

end StrataDb.Merge
