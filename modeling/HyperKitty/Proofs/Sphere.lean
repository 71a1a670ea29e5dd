import HyperKitty.Isomorphism.Layers

namespace HyperKitty.Qlg

open Exec Checked Sla Isomorphism

variable {b : Build} {v : Vec3} {n : Int64}

/-- The squared norm as an integer without bounds. -/
def Vec3.exactNormSq (v : Vec3) : Int :=
  v.x.toInt * v.x.toInt + v.y.toInt * v.y.toInt + v.z.toInt * v.z.toInt

theorem inRange_of_nonneg {m n : Int} (hm : 0 ≤ m) (h : m ≤ n) (hn : InRange n) : InRange m := by
  unfold InRange at hn ⊢
  omega

/-- Sums of squares only grow, so the last sum is the one that may overflow. -/
theorem normSq_of_inRange (h : b = .debug → InRange v.exactNormSq) :
    v.normSq b = .ok (.ofInt v.exactNormSq) := by
  have hx := mul_self_nonneg v.x.toInt
  have hy := mul_self_nonneg v.y.toInt
  have hz := mul_self_nonneg v.z.toInt
  have hpart : ∀ m, 0 ≤ m → m ≤ v.exactNormSq → b = .debug → InRange m :=
    fun m h0 hm hb => inRange_of_nonneg h0 hm (h hb)
  have hxr := hpart (v.x.toInt * v.x.toInt) hx (by unfold Vec3.exactNormSq; omega)
  have hyr := hpart (v.y.toInt * v.y.toInt) hy (by unfold Vec3.exactNormSq; omega)
  have hzr := hpart (v.z.toInt * v.z.toInt) hz (by unfold Vec3.exactNormSq; omega)
  have hxyr := hpart (v.x.toInt * v.x.toInt + v.y.toInt * v.y.toInt) (by omega)
    (by unfold Vec3.exactNormSq; omega)
  rw [Vec3.normSq, mul, mul, mul, result_ok hxr, ok_bind, result_ok hyr, ok_bind,
    add_ofInt fun hb => ⟨hxr hb, hyr hb⟩, result_ok hxyr, ok_bind, result_ok hzr, ok_bind,
    add_ofInt fun hb => ⟨hxyr hb, hzr hb⟩]
  exact result_ok h

theorem inRange_of_normSq (h : v.normSq .debug = .ok n) : InRange v.exactNormSq := by
  simp only [Vec3.normSq, mul, bind_ok] at h
  obtain ⟨x, hx, y, hy, xy, hxy, z, hz, hn⟩ := h
  have hx := result_debug.mp hx
  have hy := result_debug.mp hy
  have hz := result_debug.mp hz
  have hxy := result_debug.mp hxy
  have hn := result_debug.mp hn
  have he : v.exactNormSq = n.toInt := by
    unfold Vec3.exactNormSq
    omega
  rw [he]
  exact inRange_toInt n

/-- A coordinate whose square is at most one. -/
theorem coordinate_cases {x : Int} (h : x * x ≤ 1) : x = -1 ∨ x = 0 ∨ x = 1 := by
  have hlow : -1 ≤ x := by nlinarith
  have hhigh : x ≤ 1 := by nlinarith
  omega

theorem sphere_cases {x y z : Int} (h : x * x + y * y + z * z = 1) :
    ∃ g, x = (vec3FromGlyph g).x.toInt ∧ y = (vec3FromGlyph g).y.toInt ∧
      z = (vec3FromGlyph g).z.toInt := by
  have hx := mul_self_nonneg x
  have hy := mul_self_nonneg y
  have hz := mul_self_nonneg z
  have hxc := coordinate_cases (x := x) (by omega)
  have hyc := coordinate_cases (x := y) (by omega)
  have hzc := coordinate_cases (x := z) (by omega)
  clear hx hy hz
  rcases hxc with rfl | rfl | rfl <;> rcases hyc with rfl | rfl | rfl <;>
    rcases hzc with rfl | rfl | rfl
  all_goals first
    | exact absurd h (by decide)
    | exact ⟨.pi, rfl, rfl, rfl⟩
    | exact ⟨.gamma, rfl, rfl, rfl⟩
    | exact ⟨.delta, rfl, rfl, rfl⟩
    | exact ⟨.psi, rfl, rfl, rfl⟩
    | exact ⟨.lambda, rfl, rfl, rfl⟩
    | exact ⟨.omega, rfl, rfl, rfl⟩

/-- The integer sphere has six points. -/
theorem exactNormSq_eq_one : v.exactNormSq = 1 ↔ ∃ g, v = vec3FromGlyph g := by
  constructor
  · intro h
    obtain ⟨x, y, z⟩ := v
    obtain ⟨g, hx, hy, hz⟩ := sphere_cases (x := x.toInt) (y := y.toInt) (z := z.toInt) h
    refine ⟨g, ?_⟩
    rw [Int64.toInt_inj.mp hx, Int64.toInt_inj.mp hy, Int64.toInt_inj.mp hz]
  · intro h
    obtain ⟨g, rfl⟩ := h
    cases g <;> rfl

theorem isSome_glyphFromVec3 :
    (glyphFromVec3 v).isSome = true ↔ ∃ g, v = vec3FromGlyph g := by
  rw [Option.isSome_iff_exists]
  exact exists_congr fun g => glyphFromVec3_eq_some

/-- The certificate of `v` is computed, and it is valid just for the points of glyphs, which
are the ones with a ledger. -/
def Certified (b : Build) (v : Vec3) : Prop :=
  ∃ c l, QLGCertificate.new b v = .ok c ∧ qlgToSla b v = .ok l ∧
    (c.validate = true ↔ (glyphFromVec3 v).isSome = true) ∧
    (l.isSome = true ↔ ∃ g, v = vec3FromGlyph g)

theorem qlgToSla_of_ne (h : v.normSq b = .ok n) (hg : ¬ ∃ g, v = vec3FromGlyph g) :
    qlgToSla b v = .ok none := by
  have hnone : glyphFromVec3 v = none := by
    rwa [← isSome_glyphFromVec3, Option.not_isSome_iff_eq_none] at hg
  rw [qlgToSla, h, ok_bind, hnone]
  split <;> rfl

theorem exactNormSq_nonneg (v : Vec3) : 0 ≤ v.exactNormSq := by
  have hx := mul_self_nonneg v.x.toInt
  have hy := mul_self_nonneg v.y.toInt
  have hz := mul_self_nonneg v.z.toInt
  unfold Vec3.exactNormSq
  omega

/-- Where the sum of the squares is exact, the certificate is right. -/
theorem certified_of_inRange (b : Build) (hr : InRange v.exactNormSq) : Certified b v := by
  have hn := normSq_of_inRange (b := b) (v := v) fun _ => hr
  have hone : Int64.ofInt v.exactNormSq = kQlg ↔ ∃ g, v = vec3FromGlyph g := by
    rw [← exactNormSq_eq_one, ← Int64.toInt_inj, toInt_ofInt hr]
    rfl
  have hc : QLGCertificate.new b v =
      .ok ⟨v, .ofInt v.exactNormSq, .ofInt v.exactNormSq == kQlg⟩ := by
    rw [QLGCertificate.new, hn]
    rfl
  by_cases hg : ∃ g, v = vec3FromGlyph g
  · have hl : ∃ l, qlgToSla b v = .ok (some l) := by
      obtain ⟨g, rfl⟩ := hg
      exact ⟨_, qlgToSla_qraToQlg b g⟩
    obtain ⟨l, hl⟩ := hl
    refine ⟨_, _, hc, hl, ?_, iff_of_true rfl hg⟩
    rw [isSome_glyphFromVec3, QLGCertificate.validate, hone.mpr hg]
    exact iff_of_true rfl hg
  · refine ⟨_, _, hc, qlgToSla_of_ne hn hg, ?_, iff_of_false nofun hg⟩
    rw [isSome_glyphFromVec3, QLGCertificate.validate, beq_eq_false_iff_ne.mpr (mt hone.mp hg)]
    exact iff_of_false nofun hg

/-- Every point is certified as it should be, in both builds, exactly where the sum of its
squares has 63 bits. -/
theorem certified_iff_normSq_lt (v : Vec3) :
    (∀ b, Certified b v) ↔
      v.x.toInt * v.x.toInt + v.y.toInt * v.y.toInt + v.z.toInt * v.z.toInt < 2 ^ 63 := by
  have hnonneg := exactNormSq_nonneg v
  constructor
  · intro h
    obtain ⟨c, l, hc, -⟩ := h .debug
    obtain ⟨n, hn, -⟩ := (bind_ok _ _ _).mp hc
    exact (inRange_of_normSq hn).2
  · intro h b
    apply certified_of_inRange b
    exact ⟨by omega, h⟩

/-- The square of the greatest integer wraps around to one. -/
theorem not_certified_greatest :
    QLGCertificate.new .debug ⟨Int64.maxValue, 0, 0⟩ = .error .panic ∧
      (QLGCertificate.new .release ⟨Int64.maxValue, 0, 0⟩).map QLGCertificate.validate =
        .ok true ∧
      glyphFromVec3 ⟨Int64.maxValue, 0, 0⟩ = none ∧
      ¬ ∀ b, Certified b ⟨Int64.maxValue, 0, 0⟩ := by
  have hpanic : QLGCertificate.new .debug ⟨Int64.maxValue, 0, 0⟩ = .error .panic := by decide
  refine ⟨hpanic, by decide, by decide, ?_⟩
  intro h
  obtain ⟨c, l, hc, -⟩ := h .debug
  rw [hpanic] at hc
  cases hc

end HyperKitty.Qlg
