/-
  RationalSpline.Proofs.Coordinates
  ─────────────────────────────────
  STORED VECTORS AS ELEMENTS OF A MODULE.

  The library keeps a vector as the list of its coordinates.  Lists of a fixed
  length `d` are the vectors `Fin d → K`; here every operation on points is
  restated as the module operation it computes.
-/
import RationalSpline.Proofs.PolarForm

namespace RationalSpline.Point

variable {K : Type} {d : Nat}

/-! ## §1. The correspondence. -/

/-- The list of coordinates of a vector. -/
def ofVec (v : Fin d → K) : Point K := List.ofFn v

@[simp] theorem length_ofVec (v : Fin d → K) : (ofVec v).length = d := by
  simp [ofVec]

variable [Field K]

/-- The vector of the first `d` coordinates. -/
def coords (d : Nat) (p : Point K) : Fin d → K := fun i => p.getD i 0

theorem ofVec_coords {p : Point K} (h : p.length = d) : ofVec (coords d p) = p := by
  subst h
  refine List.ext_getElem (by simp) fun i h₁ h₂ => ?_
  simp [ofVec, coords, List.getElem?_eq_getElem h₂]

@[simp] theorem coords_ofVec (v : Fin d → K) : coords d (ofVec v) = v := by
  funext i
  simp [ofVec, coords]

theorem ofVec_injective : Function.Injective (ofVec : (Fin d → K) → Point K) := by
  intro v w h
  rw [← coords_ofVec v, h, coords_ofVec]

/-! ## §2. Linear operations. -/

variable [LinearOrder K]

theorem add_ofVec (v w : Fin d → K) : add (ofVec v) (ofVec w) = ofVec (v + w) := by
  refine List.ext_getElem (by simp) fun i h₁ h₂ => ?_
  simp [add, ofVec]

theorem sub_ofVec (v w : Fin d → K) : sub (ofVec v) (ofVec w) = ofVec (v - w) := by
  refine List.ext_getElem (by simp) fun i h₁ h₂ => ?_
  simp [sub, ofVec]

theorem scale_ofVec (v : Fin d → K) (a : K) : scale (ofVec v) a = ofVec (a • v) := by
  refine List.ext_getElem (by simp) fun i h₁ h₂ => ?_
  simp [scale, ofVec, mul_comm]

theorem divide_ofVec (v : Fin d → K) (a : K) : divide (ofVec v) a = ofVec (a⁻¹ • v) := by
  refine List.ext_getElem (by simp) fun i h₁ h₂ => ?_
  simp [divide, ofVec, div_eq_inv_mul]

theorem zero_eq_ofVec : (zero d : Point K) = ofVec (0 : Fin d → K) := by
  refine List.ext_getElem (by simp) fun i h₁ h₂ => ?_
  simp [zero, ofVec]

theorem blend_ofVec (a : K) (v w : Fin d → K) :
    blend a (ofVec v) (ofVec w) = ofVec (mix a v w) := by
  rw [blend, scale_ofVec, scale_ofVec, add_ofVec, mix, add_comm]

theorem weight_eq_getD {x : Point K} {n : Nat} (h : x.length = n + 1) :
    weight x = x.getD n 0 := by
  obtain ⟨init, last, rfl⟩ := (List.eq_nil_or_concat' x).resolve_left (by
    rintro rfl
    simp at h)
  have length : init.length = n := by simpa using h
  rw [weight, List.getLastD_concat, List.getD_append_right _ _ _ _ length.le, length, Nat.sub_self]
  rfl

/-- Points of one weight are determined by their locations. -/
theorem eq_of_dehomogenize {x y : Point K} (same : weight x = weight y) (nonzero : weight x ≠ 0)
    (h : dehomogenize x = dehomogenize y) : x = y := by
  have whole : ∀ z : Point K, weight z ≠ 0 →
      z = scale (dehomogenize z) (weight z) ++ [weight z] := by
    intro z hz
    rcases List.eq_nil_or_concat' z with rfl | ⟨init, last, rfl⟩
    · simp [weight] at hz
    · rw [weight, List.getLastD_concat] at hz
      simp [dehomogenize, weight, divide, scale, Function.comp_def, hz]
  rw [whole x nonzero, whole y (same ▸ nonzero), h, same]

/-! ## §3. Combinations of several vectors. -/

theorem foldl_add_ofVec (pairs : List (K × (Fin d → K))) (v : Fin d → K) :
    (pairs.map fun bp => (bp.1, ofVec bp.2)).foldl
        (fun sum bp => add sum (scale bp.2 bp.1)) (ofVec v)
      = ofVec (v + (pairs.map fun bp => bp.1 • bp.2).sum) := by
  induction pairs generalizing v with
  | nil => simp
  | cons bp rest ih =>
      simp only [List.map_cons, List.foldl_cons, List.sum_cons]
      rw [scale_ofVec, add_ofVec, ih, add_assoc]

theorem combine_ofVec (coefficients : List K) (vs : List (Fin d → K)) :
    combine d coefficients (vs.map ofVec)
      = ofVec ((List.zipWith (fun b v => b • v) coefficients vs).sum) := by
  have pairs : coefficients.zip (vs.map ofVec)
      = (coefficients.zip vs).map fun bp => (bp.1, ofVec bp.2) := by
    rw [List.zip_map_right]
    rfl
  show (coefficients.zip (vs.map ofVec)).foldl
      (fun sum bp => add sum (scale bp.2 bp.1)) (zero d) = _
  rw [pairs, zero_eq_ofVec, foldl_add_ofVec, zero_add, List.map_zip_eq_zipWith]
  rfl

end RationalSpline.Point
