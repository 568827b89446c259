import HeaderPeers.Proofs.Function.Variants
import Mathlib.Data.Nat.ModEq

/-!
# Which variants are printed

A variant is printed if its signature is new, and the first alternative that brings
nothing new ends the list. Two patterns cover functions whose parameters have one
target name each, and functions without default values.

- `Function.picked_variants_of_same` — where no alternative changes a signature, the
  variants of the first one are printed.
- `Function.picked_variants_of_periodic` — where the signature repeats with a period,
  one alternative is printed for each step of it.
-/

namespace HeaderPeers.Function

variable {signature : Variant → String} {seen seen' : List String} {v : Variant}
  {vs ws : List Variant}

/-- It makes no difference in which order the signatures were met, and how often. -/
theorem picked_congr (h : ∀ x, x ∈ seen ↔ x ∈ seen') (vs : List Variant) :
    picked signature seen vs = picked signature seen' vs := by
  induction vs generalizing seen seen' with
  | nil => rfl
  | cons v vs ih =>
      have hmore : ∀ x, x ∈ signature v :: seen ↔ x ∈ signature v :: seen' := by
        intro x
        rw [List.mem_cons, List.mem_cons, h]
      have hends : ends signature seen v ↔ ends signature seen' v := by
        rw [ends, ends, h]
      simp only [picked, h, hends, ih hmore]

/-- Only variants that are tried are printed. -/
theorem mem_of_mem_picked (hv : v ∈ picked signature seen vs) : v ∈ vs := by
  induction vs generalizing seen with
  | nil => exact hv
  | cons w vs ih =>
      rw [picked] at hv
      split at hv
      · cases hv
      split at hv
      · exact List.mem_cons_of_mem _ (ih hv)
      · rcases List.mem_cons.mp hv with rfl | hv
        · exact List.mem_cons_self
        · exact List.mem_cons_of_mem _ (ih hv)

/-- Signatures that are new and differ from each other are all printed. -/
theorem picked_append_of_fresh (hvs : (vs.map signature).Nodup)
    (hfresh : ∀ v ∈ vs, signature v ∉ seen) (ws : List Variant) :
    picked signature seen (vs ++ ws) = vs ++ picked signature (vs.map signature ++ seen) ws := by
  induction vs generalizing seen with
  | nil => rfl
  | cons v vs ih =>
      rw [List.map_cons, List.nodup_cons] at hvs
      have hv : signature v ∉ seen := hfresh v List.mem_cons_self
      have hmore : ∀ w ∈ vs, signature w ∉ signature v :: seen := by
        intro w hw
        rw [List.mem_cons, not_or]
        exact ⟨fun heq => hvs.1 (heq ▸ List.mem_map_of_mem hw),
          hfresh w (List.mem_cons_of_mem _ hw)⟩
      rw [List.cons_append, picked, if_neg fun hends => hv hends.1, if_neg hv, ih hvs.2 hmore,
        List.cons_append]
      refine congrArg _ (congrArg _ (picked_congr (fun x => ?_) ws))
      simp only [List.map_cons, List.cons_append, List.mem_cons, List.mem_append]
      tauto

/-- Signatures that were met are passed over, unless that ends the list. -/
theorem picked_append_of_seen (hseen : ∀ v ∈ vs, signature v ∈ seen ∧ v.choice ≤ 0)
    (ws : List Variant) : picked signature seen (vs ++ ws) = picked signature seen ws := by
  induction vs with
  | nil => rfl
  | cons v vs ih =>
      obtain ⟨hv, hchoice⟩ := hseen v List.mem_cons_self
      rw [List.cons_append, picked, if_neg fun hends => absurd hends.2.1 (not_lt.mpr hchoice),
        if_pos hv, ← ih fun w hw => hseen w (List.mem_cons_of_mem _ hw)]
      refine picked_congr (fun x => ?_) _
      rw [List.mem_cons, or_iff_right_iff_imp]
      rintro rfl
      exact hv

/-- An alternative that brings nothing new from its first position on ends the list. -/
theorem picked_of_ends (hv : ends signature seen v) (ws : List Variant) :
    picked signature seen (v :: ws) = [] := by
  rw [picked, if_pos hv]

/-! ## Blocks of one alternative -/

/-- The variants with one of the target names, with all parameters and with fewer and
fewer default values. -/
def block (defaults : Nat) (choice : Int) : List Variant :=
  (none :: (List.range defaults).reverse.map some).zipIdx.map fun (keep, position) =>
    { choice, position, keep }

theorem variants_eq_flatMap (defaults : Nat) :
    variants defaults = (List.range 33).flatMap fun (c : Nat) => block defaults ((c : Int) - 1) :=
  rfl

theorem block_eq_cons (defaults : Nat) (choice : Int) :
    ∃ vs, block defaults choice = { choice, position := 0, keep := none } :: vs :=
  ⟨_, rfl⟩

/-- How many default values stay in the variants of a block. -/
theorem map_keep_block (defaults : Nat) (choice : Int) :
    (block defaults choice).map (·.keep) = none :: (List.range defaults).reverse.map some := by
  unfold block
  rw [List.map_map, Function.comp_def]
  exact List.zipIdx_map_fst _ _

theorem choice_of_mem_block {defaults : Nat} {choice : Int} (hv : v ∈ block defaults choice) :
    v.choice = choice ∧ v.keep ∈ none :: (List.range defaults).reverse.map some := by
  refine ⟨?_, map_keep_block defaults choice ▸ List.mem_map_of_mem hv⟩
  obtain ⟨p, -, rfl⟩ := List.mem_map.mp hv
  rfl

/-- **Where alternatives make no difference.** If signatures depend only on how many
parameters stay, those of the first block are printed. -/
theorem picked_variants_of_same {defaults : Nat} {sign : Option Nat → String}
    (hsign : ∀ v, signature v = sign v.keep)
    (hnodup : ((none :: (List.range defaults).reverse.map some).map sign).Nodup) :
    picked signature [] (variants defaults) = block defaults (-1) := by
  have hmap (choice : Int) : (block defaults choice).map signature =
      (none :: (List.range defaults).reverse.map some).map sign := by
    rw [← map_keep_block defaults choice, List.map_map]
    exact List.map_congr_left fun v _ => hsign v
  obtain ⟨more, hmore⟩ := block_eq_cons defaults 1
  obtain ⟨rest, hrest⟩ : ∃ rest, variants defaults =
      block defaults (-1) ++ (block defaults 0 ++ (block defaults 1 ++ rest)) := ⟨_, rfl⟩
  have hseen (v : Variant) (hv : v.keep ∈ none :: (List.range defaults).reverse.map some) :
      signature v ∈ (block defaults (-1)).map signature ++ [] := by
    rw [List.append_nil, hmap, hsign]
    exact List.mem_map_of_mem hv
  rw [hrest, picked_append_of_fresh (by rwa [hmap]) (fun _ _ => List.not_mem_nil),
    picked_append_of_seen fun v hv => ?_, hmore, List.cons_append, picked_of_ends,
    List.append_nil]
  · exact ⟨hseen _ List.mem_cons_self, Int.one_pos, rfl⟩
  · obtain ⟨hchoice, hkeep⟩ := choice_of_mem_block hv
    exact ⟨hseen v hkeep, hchoice.le⟩

/-! ## Alternatives that repeat -/

/-- All parameters, with one of the target names. -/
def alternative (choice : Int) : Variant :=
  { choice, position := 0, keep := none }

theorem variants_zero : variants 0 =
    alternative (-1) :: alternative 0 :: (List.range' 1 31).map fun (c : Nat) => alternative c :=
  rfl

/-- Without default values, all parameters stay. -/
theorem keep_of_mem_variants_zero (hv : v ∈ variants 0) : v.keep = none := by
  rw [variants_eq_flatMap] at hv
  obtain ⟨c, -, hv⟩ := List.mem_flatMap.mp hv
  simpa using (choice_of_mem_block hv).2

variable {period : Nat}

/-- From some alternative on, as many are printed as are left of the period, by
induction on how many are tried. -/
theorem picked_alternatives
    (hsign : ∀ c c' : Nat, signature (alternative c) = signature (alternative c') ↔
      c ≡ c' [MOD period]) {n c : Nat} (hc : 0 < c) (hle : c ≤ period)
    (hseen : ∀ x, x ∈ seen ↔ ∃ c' < c, x = signature (alternative (c' : Nat))) :
    picked signature seen ((List.range' c n).map fun (c : Nat) => alternative c) =
      (List.range' c (min n (period - c))).map fun (c : Nat) => alternative c := by
  induction n generalizing c seen with
  | zero => rw [Nat.zero_min]; rfl
  | succ n ih =>
      rw [List.range'_succ, List.map_cons]
      rcases Nat.eq_or_lt_of_le hle with rfl | hlt
      · have hmet : signature (alternative c) ∈ seen :=
          (hseen _).mpr ⟨0, hc, (hsign c 0).mpr (Nat.mod_self c)⟩
        rw [picked_of_ends ⟨hmet, by simpa [alternative] using hc, rfl⟩, Nat.sub_self, Nat.min_zero]
        rfl
      · have hfresh : signature (alternative c) ∉ seen := by
          rw [hseen]
          rintro ⟨c', hc', heq⟩
          have hmod : c = c' := ((hsign c c').mp heq).eq_of_lt_of_lt hlt (hc'.trans hlt)
          omega
        have hmore : ∀ x, x ∈ signature (alternative c) :: seen ↔
            ∃ c' < c + 1, x = signature (alternative (c' : Nat)) := by
          intro x
          rw [List.mem_cons, hseen]
          constructor
          · rintro (rfl | ⟨c', hc', rfl⟩)
            · exact ⟨c, Nat.lt_succ_self c, rfl⟩
            · exact ⟨c', Nat.lt_succ_of_lt hc', rfl⟩
          · rintro ⟨c', hc', rfl⟩
            rcases Nat.lt_succ_iff_lt_or_eq.mp hc' with hlt' | rfl
            · exact Or.inr ⟨c', hlt', rfl⟩
            · exact Or.inl rfl
        have hcount : min (n + 1) (period - c) = min n (period - (c + 1)) + 1 := by omega
        rw [picked, if_neg fun hends => hfresh hends.1, if_neg hfresh,
          ih (Nat.succ_pos c) hlt hmore, hcount, List.range'_succ, List.map_cons]

/-- **Alternatives that repeat.** If the signatures repeat with a period, the
alternatives of one period are printed, as far as they are tried. -/
theorem picked_variants_of_periodic (hperiod : 0 < period)
    (hsign : ∀ v w : Variant, v.keep = none → w.keep = none →
      (signature v = signature w ↔ v.choice.toNat ≡ w.choice.toNat [MOD period])) :
    (picked signature [] (variants 0)).map (·.choice.toNat) = List.range (min period 32) := by
  have hfirst : signature (alternative (-1)) = signature (alternative 0) :=
    (hsign _ _ rfl rfl).mpr rfl
  have hseen : ∀ x, x ∈ [signature (alternative 0), signature (alternative (-1))] ↔
      ∃ c' < 1, x = signature (alternative (c' : Nat)) := by
    intro x
    simp [hfirst]
  rw [variants_zero, picked, if_neg fun hends => absurd hends.1 List.not_mem_nil,
    if_neg List.not_mem_nil, picked, if_neg fun hends => absurd hends.2.1 (lt_irrefl _),
    if_pos (by rw [hfirst]; exact List.mem_cons_self),
    picked_alternatives (fun c c' => hsign _ _ rfl rfl) Nat.one_pos hperiod hseen, List.map_cons,
    List.map_map]
  have hcount : min period 32 = min 31 (period - 1) + 1 := by omega
  rw [hcount, List.range_eq_range', List.range'_succ]
  refine congrArg _ (List.map_id'' (fun c => ?_) _)
  rfl

end HeaderPeers.Function
