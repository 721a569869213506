import Mathlib.Data.Prod.Lex
import Higress.Lib.StableSort
import Higress.Ingress.Model

/-!
The order in which the routes of one host are handed to Istio. Envoy takes
the first route that matches, so the position of a route decides whether it
is reachable.

The comparison is a nest of early returns over seven keys. Read on pairs it is
the documented priority. It is transitive, but the two regex path types are
incomparable with each other while each is ordered by path length, so it is
not the strict weak order that the sort asks for: a longer regex path that
stands behind a route of the other regex type stays behind a shorter one of
its own type. `Separated` excludes exactly these triples.
-/

namespace Higress.Ingress

open Higress.Lib Higress.Lib.StableSort

/-! ### The code -/

/-- A prefix route on the root path that constrains nothing else. -/
def isAllCatch (route : WrapperHTTPRoute) : Bool :=
  if route.originPathType = .prefixPath ∧ route.originPath = bytes "/" then
    match route.httpRoute.match with
    | [] => true
    | m :: _ => m.headers.length == 0 && m.queryParams.length == 0 && m.method.isNone
  else false

/-- The tie-breaks on the first match of two routes: methods, then headers,
then query parameters. -/
def matchLess (match1 match2 : HTTPMatchRequest) : Bool :=
  let methods1 := (StringMatch.getRegex match1.method).length
  let methods2 := (StringMatch.getRegex match2.method).length
  if methods1 ≠ methods2 then
    if methods1 ≠ 0 ∧ methods2 ≠ 0 then methods1 < methods2 else methods1 ≠ 0
  else if match1.headers.length ≠ match2.headers.length then
    match1.headers.length > match2.headers.length
  else if match1.queryParams.length ≠ match2.queryParams.length then
    match1.queryParams.length > match2.queryParams.length
  else false

/-- The comparison that `SortHTTPRoutes` passes to the sort. -/
def routeLess (routeI routeJ : WrapperHTTPRoute) : Bool :=
  if routeI.isDefaultBackend then false
  else if routeJ.isDefaultBackend then true
  else if isAllCatch routeI then false
  else if isAllCatch routeJ then true
  else if routeI.originPathType = routeJ.originPathType then
    if routeI.originPath.length ≠ routeJ.originPath.length then
      routeI.originPath.length > routeJ.originPath.length
    else
      match routeI.httpRoute.match, routeJ.httpRoute.match with
      | [], _ => false
      | _ :: _, [] => true
      | match1 :: _, match2 :: _ => matchLess match1 match2
  else if routeI.originPathType = .exact then true
  else if routeI.originPathType ≠ .exact ∧ routeJ.originPathType ≠ .exact then
    routeI.originPathType = .prefixPath
  else false

def sortHTTPRoutes (routes : List WrapperHTTPRoute) : List WrapperHTTPRoute :=
  sliceStable routeLess routes

/-! ### The documented priority -/

/-- Default backends come last, catch-all routes right before them. -/
inductive Band
  | ordinary
  | catchAll
  | defaultBackend
  deriving DecidableEq

def Band.rank : Band → ℕ
  | .ordinary => 0
  | .catchAll => 1
  | .defaultBackend => 2

def WrapperHTTPRoute.band (r : WrapperHTTPRoute) : Band :=
  if r.isDefaultBackend then .defaultBackend
  else if isAllCatch r then .catchAll
  else .ordinary

/-- Exact before prefix before regex. -/
def PathType.rank : PathType → ℕ
  | .exact => 0
  | .prefixPath => 1
  | _ => 2

/-- The keys that order two matches: some method before none, the shorter list
of methods, more headers, more query parameters. -/
def HTTPMatchRequest.specificity (m : HTTPMatchRequest) : ℕ ×ₗ ℕ ×ₗ ℕᵒᵈ ×ₗ ℕᵒᵈ :=
  toLex (if (StringMatch.getRegex m.method).length = 0 then 1 else 0,
    toLex ((StringMatch.getRegex m.method).length,
      toLex (OrderDual.toDual m.headers.length, OrderDual.toDual m.queryParams.length)))

/-- The keys that order routes of one path type: longer path, some match, and
the keys of the first match. -/
def WrapperHTTPRoute.specificity (r : WrapperHTTPRoute) :
    ℕᵒᵈ ×ₗ ℕ ×ₗ ℕ ×ₗ ℕ ×ₗ ℕᵒᵈ ×ₗ ℕᵒᵈ :=
  toLex (OrderDual.toDual r.originPath.length,
    match r.httpRoute.match with
    | [] => toLex (1, toLex (0, toLex (0, toLex (OrderDual.toDual 0, OrderDual.toDual 0))))
    | m :: _ => toLex (0, m.specificity))

/-- `r` has priority over `r'`. -/
def Precedes (r r' : WrapperHTTPRoute) : Prop :=
  r.band.rank < r'.band.rank ∨
    r.band = .ordinary ∧ r'.band = .ordinary ∧
      (r.originPathType.rank < r'.originPathType.rank ∨
        r.originPathType = r'.originPathType ∧ r.specificity < r'.specificity)

/-- No later route has priority over an earlier one. -/
def Prioritised (routes : List WrapperHTTPRoute) : Prop :=
  routes.Pairwise fun r r' => ¬Precedes r' r

theorem matchLess_iff (m m' : HTTPMatchRequest) :
    matchLess m m' = true ↔ m.specificity < m'.specificity := by
  simp only [HTTPMatchRequest.specificity, Prod.Lex.toLex_lt_toLex, OrderDual.toDual_lt_toDual,
    OrderDual.toDual_inj]
  unfold matchLess
  generalize (StringMatch.getRegex m.method).length = a
  generalize (StringMatch.getRegex m'.method).length = b
  by_cases ha : a = 0 <;> by_cases hb : b = 0 <;> simp only [ha, hb] <;> grind

/-- The nest of early returns computes the documented priority of a pair. -/
theorem routeLess_iff (r r' : WrapperHTTPRoute) : routeLess r r' = true ↔ Precedes r r' := by
  have hspec : r.originPathType = r'.originPathType →
      ((if r.originPath.length ≠ r'.originPath.length then
          decide (r.originPath.length > r'.originPath.length)
        else
          match r.httpRoute.match, r'.httpRoute.match with
          | [], _ => false
          | _ :: _, [] => true
          | m :: _, m' :: _ => matchLess m m') = true ↔ r.specificity < r'.specificity) := by
    intro _
    simp only [WrapperHTTPRoute.specificity, Prod.Lex.toLex_lt_toLex, OrderDual.toDual_lt_toDual,
      OrderDual.toDual_inj]
    by_cases hlen : r.originPath.length = r'.originPath.length
    · rw [if_neg (by simpa using hlen)]
      rcases r.httpRoute.match with - | ⟨m, ms⟩ <;> rcases r'.httpRoute.match with - | ⟨m', ms'⟩
      · simp [hlen]
      · simp [hlen, Prod.Lex.toLex_lt_toLex]
      · simp [hlen, Prod.Lex.toLex_lt_toLex]
      · simp [hlen, Prod.Lex.toLex_lt_toLex, matchLess_iff]
    · simp [hlen]
  unfold routeLess Precedes
  cases hd : r.isDefaultBackend <;> cases hd' : r'.isDefaultBackend <;>
    cases hc : isAllCatch r <;> cases hc' : isAllCatch r' <;>
    simp only [WrapperHTTPRoute.band, hd, hd', hc, hc', if_true, if_false, Bool.false_eq_true,
      Band.rank]
  all_goals try simp
  -- both routes are ordinary
  by_cases ht : r.originPathType = r'.originPathType
  · simpa [ht] using hspec ht
  · cases h : r.originPathType <;> cases h' : r'.originPathType <;>
      simp_all [PathType.rank]

theorem Band.eq_ordinary_of_rank_le {b : Band} (h : b.rank ≤ 0) : b = .ordinary := by
  cases b <;> simp_all [Band.rank]

theorem Precedes.trans {a b c : WrapperHTTPRoute} (hab : Precedes a b) (hbc : Precedes b c) :
    Precedes a c := by
  rcases hab with hab | ⟨ha, hb, hab⟩
  · rcases hbc with hbc | ⟨hb, -, -⟩
    · exact Or.inl (hab.trans hbc)
    · simp [hb, Band.rank] at hab
  · rcases hbc with hbc | ⟨-, hc, hbc⟩
    · exact Or.inl (by rwa [ha, ← hb])
    · refine Or.inr ⟨ha, hc, ?_⟩
      rcases hab with hab | ⟨htab, hab⟩ <;> rcases hbc with hbc | ⟨htbc, hbc⟩
      · exact Or.inl (hab.trans hbc)
      · exact Or.inl (htbc ▸ hab)
      · exact Or.inl (htab ▸ hbc)
      · exact Or.inr ⟨htab.trans htbc, hab.trans hbc⟩

theorem Precedes.irrefl (a : WrapperHTTPRoute) : ¬Precedes a a := by
  rintro (h | ⟨-, -, h | ⟨-, h⟩⟩)
  · exact lt_irrefl _ h
  · exact lt_irrefl _ h
  · exact lt_irrefl _ h

theorem routeLess_trans (a b c : WrapperHTTPRoute) (hab : routeLess a b = true)
    (hbc : routeLess b c = true) : routeLess a c = true := by
  rw [routeLess_iff] at *
  exact hab.trans hbc

theorem routeLess_asymm (a b : WrapperHTTPRoute) (hab : routeLess a b = true) :
    routeLess b a = false := by
  rw [Bool.eq_false_iff]
  intro hba
  rw [routeLess_iff] at hab hba
  exact Precedes.irrefl a (hab.trans hba)

/-! ### The order of the result -/

/-- A regex route stands between two routes of another regex type of which the
later one has priority. -/
structure Interleaved (x y z : WrapperHTTPRoute) : Prop where
  ordinary : x.band = .ordinary ∧ y.band = .ordinary ∧ z.band = .ordinary
  regex : x.originPathType.rank = 2 ∧ y.originPathType.rank = 2
  ends : z.originPathType = x.originPathType
  middle : y.originPathType ≠ x.originPathType
  inverted : z.specificity < x.specificity

/-- No three routes of the list, in list order, are interleaved. -/
def Separated (routes : List WrapperHTTPRoute) : Prop :=
  routes.Triplewise fun x y z => ¬Interleaved x y z

/-- Interleaved triples are the only ones on which the comparison fails to be
consistent. -/
theorem routeLess_consistent_iff (x y z : WrapperHTTPRoute) :
    (routeLess z x = true → routeLess y x = true ∨ routeLess z y = true) ↔
      ¬Interleaved x y z := by
  simp only [routeLess_iff]
  constructor
  · intro h hi
    obtain ⟨hx, hy, hz⟩ := hi.ordinary
    have hzx : Precedes z x := Or.inr ⟨hz, hx, Or.inr ⟨hi.ends, hi.inverted⟩⟩
    rcases h hzx with (h | ⟨-, -, h | ⟨h, -⟩⟩) | (h | ⟨-, -, h | ⟨h, -⟩⟩)
    · simp [hx, hy] at h
    · simp [hi.regex] at h
    · exact hi.middle h
    · simp [hy, hz] at h
    · simp [hi.ends, hi.regex] at h
    · exact hi.middle (h.symm.trans hi.ends)
  · intro h hzx
    by_contra hnot
    obtain ⟨hyx, hzy⟩ := not_or.mp hnot
    have hbands : z.band.rank < x.band.rank ∨ z.band = .ordinary ∧ x.band = .ordinary := by
      rcases hzx with hzx | ⟨hz, hx, -⟩
      · exact Or.inl hzx
      · exact Or.inr ⟨hz, hx⟩
    have hyx' : ¬y.band.rank < x.band.rank := fun hlt => hyx (Or.inl hlt)
    have hzy' : ¬z.band.rank < y.band.rank := fun hlt => hzy (Or.inl hlt)
    obtain ⟨hz, hx⟩ : z.band = .ordinary ∧ x.band = .ordinary := by
      rcases hbands with hlt | hord
      · omega
      · exact hord
    have hy : y.band = .ordinary := by
      refine Band.eq_ordinary_of_rank_le ?_
      simpa [hz, Band.rank] using hzy'
    obtain hrank | ⟨htype, hspec⟩ : z.originPathType.rank < x.originPathType.rank ∨
        z.originPathType = x.originPathType ∧ z.specificity < x.specificity := by
      rcases hzx with hzx | ⟨-, -, hzx⟩
      · simp [hz, hx] at hzx
      · exact hzx
    · have h1 : ¬y.originPathType.rank < x.originPathType.rank := fun hlt =>
        hyx (Or.inr ⟨hy, hx, Or.inl hlt⟩)
      have h2 : ¬z.originPathType.rank < y.originPathType.rank := fun hlt =>
        hzy (Or.inr ⟨hz, hy, Or.inl hlt⟩)
      omega
    · have h1 : ¬y.originPathType.rank < x.originPathType.rank := fun hlt =>
        hyx (Or.inr ⟨hy, hx, Or.inl hlt⟩)
      have h2 : ¬x.originPathType.rank < y.originPathType.rank := fun hlt =>
        hzy (Or.inr ⟨hz, hy, Or.inl (htype ▸ hlt)⟩)
      have hne : y.originPathType ≠ x.originPathType := by
        intro heq
        have h3 : ¬y.specificity < x.specificity := fun hlt =>
          hyx (Or.inr ⟨hy, hx, Or.inr ⟨heq, hlt⟩⟩)
        have h4 : ¬z.specificity < y.specificity := fun hlt =>
          hzy (Or.inr ⟨hz, hy, Or.inr ⟨htype.trans heq.symm, hlt⟩⟩)
        exact absurd hspec (not_lt.mpr ((not_lt.mp h3).trans (not_lt.mp h4)))
      refine h ⟨⟨hx, hy, hz⟩, ?_, htype, hne, hspec⟩
      revert h1 h2 hne
      cases x.originPathType <;> cases y.originPathType <;> simp [PathType.rank]

theorem consistent_iff_separated (routes : List WrapperHTTPRoute) :
    Consistent routeLess routes ↔ Separated routes :=
  ⟨fun h => h.imp fun hc => (routeLess_consistent_iff _ _ _).mp hc,
    fun h => h.imp fun hs => (routeLess_consistent_iff _ _ _).mpr hs⟩

theorem ordered_iff_prioritised (routes : List WrapperHTTPRoute) :
    Ordered routeLess routes ↔ Prioritised routes := by
  unfold Ordered Prioritised
  simp only [← routeLess_iff, Bool.not_eq_true]

/-- In a prioritised list routes of one path type come longest path first. -/
theorem Prioritised.length_le {routes : List WrapperHTTPRoute} (h : Prioritised routes) :
    routes.Pairwise fun r r' => r.originPathType = r'.originPathType → r.band = .ordinary →
      r'.band = .ordinary → r'.originPath.length ≤ r.originPath.length := by
  refine h.imp fun {r r'} hnot htype hr hr' => ?_
  by_contra hlt
  refine hnot (Or.inr ⟨hr', hr, Or.inr ⟨htype.symm, ?_⟩⟩)
  simp only [WrapperHTTPRoute.specificity, Prod.Lex.toLex_lt_toLex, OrderDual.toDual_lt_toDual]
  exact Or.inl (by omega)

/-- The routes of a host come out in the documented priority whenever no three
of them are interleaved, and a host whose routes fit in one block of the sort
gets that order only then. -/
theorem sortHTTPRoutes_prioritised (routes : List WrapperHTTPRoute) :
    (sortHTTPRoutes routes).Perm routes ∧
      (Separated routes → Prioritised (sortHTTPRoutes routes) ∧
        (sortHTTPRoutes routes).Pairwise fun r r' => r.originPathType = r'.originPathType →
          r.band = .ordinary → r'.band = .ordinary →
          r'.originPath.length ≤ r.originPath.length) ∧
      (routes.length ≤ 20 → (Prioritised (sortHTTPRoutes routes) ↔ Separated routes)) := by
  have hforward : Separated routes → Prioritised (sortHTTPRoutes routes) := by
    intro h
    have hc := (consistent_iff_separated routes).mpr h
    exact (ordered_iff_prioritised _).mp
      (sliceStable_spec routeLess_trans routeLess_asymm hc).1
  refine ⟨perm_sliceStable routes, fun h => ⟨hforward h, (hforward h).length_le⟩,
    fun hlen => ⟨fun h => ?_, hforward⟩⟩
  have ho := (ordered_iff_prioritised _).mpr h
  rw [sortHTTPRoutes, sliceStable_of_length_le routeLess hlen] at ho
  exact (consistent_iff_separated routes).mp (consistent_of_ordered_insertionSort ho)

/-- A regex route of an ingress that names nothing but its path. -/
def regexRoute (pathType : PathType) (path : GoString) : WrapperHTTPRoute :=
  { wrapperConfig := ⟨{ name := bytes "ingress", «namespace» := bytes "default" }, {}⟩
    httpRoute := { «match» := [{ uri := some (.regex path) }] }
    originPath := path
    originPathType := pathType }

/-- A shorter prefix regex stays in front of a longer one when a full path
regex stands between them. -/
theorem sortHTTPRoutes_interleaved :
    ¬Prioritised (sortHTTPRoutes [regexRoute .prefixRegex (bytes "/api"),
      regexRoute .fullPathRegex (bytes "/status"),
      regexRoute .prefixRegex (bytes "/api/[a-z]+")]) := by
  rw [← ordered_iff_prioritised, sortHTTPRoutes, sliceStable_of_length_le routeLess (by decide)]
  unfold Ordered
  decide

end Higress.Ingress
