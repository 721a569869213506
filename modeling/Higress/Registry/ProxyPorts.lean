import Mathlib
import Higress.Registry.Reconcile

/-!
What `FillProxyListenerPorts` (`registry/proxy/factory.go`) does to a whole list of
proxies. Ports are handed out from a set of used ports that first holds all preset ones
and then grows by each port handed out, so what is said about a rest of the list is said
relative to the ports used before it.
-/

namespace Higress.Registry

variable {ρ : Type}

theorem mem_proxyPortRange {port : UInt32} :
    port ∈ proxyPortRange ↔ 50001 ≤ port ∧ port < 51000 := by
  simp only [proxyPortRange, List.mem_map, List.mem_range'_1]
  constructor
  · rintro ⟨n, ⟨hfrom, hbelow⟩, rfl⟩
    have hn : n % 2 ^ 32 = n := Nat.mod_eq_of_lt (by omega)
    rw [UInt32.le_iff_toNat_le, UInt32.lt_iff_toNat_lt]
    simp only [UInt32.toNat_ofNat', UInt32.toNat_ofNat, hn]
    omega
  · rintro ⟨hfrom, hbelow⟩
    rw [UInt32.le_iff_toNat_le] at hfrom
    rw [UInt32.lt_iff_toNat_lt] at hbelow
    simp only [UInt32.toNat_ofNat] at hfrom hbelow
    exact ⟨port.toNat, by omega, UInt32.ofNat_toNat⟩

theorem ne_zero_of_mem_proxyPortRange {port : UInt32} (h : port ∈ proxyPortRange) :
    port ≠ 0 := by
  rintro rfl
  exact absurd (mem_proxyPortRange.mp h).1 (by decide)

/-- A proxy before and after, to which a port was given. -/
def Assigned (entry : ProxyConfig ρ × ProxyConfig ρ) : Prop :=
  entry.1.listenerPort = 0 ∧ entry.2.listenerPort ≠ 0

/-- The entries are those of a list filled when the ports in `used` were taken. -/
structure Filled (used : List UInt32) (entries : List (ProxyConfig ρ × ProxyConfig ρ))
    (filled : Bool) : Prop where
  others : ∀ e ∈ entries, e.2 = { e.1 with listenerPort := e.2.listenerPort }
  preset : ∀ e ∈ entries, 0 < e.1.listenerPort → e.2.listenerPort = e.1.listenerPort
  fresh : ∀ e ∈ entries, Assigned e →
    e.2.listenerPort ∈ proxyPortRange ∧ e.2.listenerPort ∉ used
  distinct : entries.Pairwise fun d e =>
    Assigned d → Assigned e → d.2.listenerPort ≠ e.2.listenerPort
  full : ∀ e ∈ entries, e.2.listenerPort = 0 → ∀ port ∈ proxyPortRange,
    port ∈ used ∨ ∃ d ∈ entries, Assigned d ∧ d.2.listenerPort = port
  filled_iff : filled = true ↔ ∃ e ∈ entries, Assigned e

theorem Filled.nil (used : List UInt32) :
    Filled used ([] : List (ProxyConfig ρ × ProxyConfig ρ)) false where
  others := by simp
  preset := by simp
  fresh := by simp
  distinct := List.Pairwise.nil
  full := by simp
  filled_iff := by simp

/-- A proxy left as it is: it has a port, or none is free for it. -/
theorem Filled.keep {used : List UInt32} {entries : List (ProxyConfig ρ × ProxyConfig ρ)}
    {filled : Bool} (h : Filled used entries filled) (proxy : ProxyConfig ρ)
    (hproxy : 0 < proxy.listenerPort ∨ ∀ port ∈ proxyPortRange, port ∈ used) :
    Filled used ((proxy, proxy) :: entries) filled := by
  have hnot : ¬ Assigned (proxy, proxy) := fun hnew => hnew.2 hnew.1
  refine ⟨?_, ?_, ?_, ?_, ?_, ?_⟩
  · intro e he
    rcases List.mem_cons.mp he with rfl | he
    · rfl
    · exact h.others e he
  · intro e he hport
    rcases List.mem_cons.mp he with rfl | he
    · rfl
    · exact h.preset e he hport
  · intro e he hnew
    rcases List.mem_cons.mp he with rfl | he
    · exact absurd hnew hnot
    · exact h.fresh e he hnew
  · refine List.Pairwise.cons ?_ h.distinct
    intro e _ hnew
    exact absurd hnew hnot
  · intro e he hzero port hport
    rcases List.mem_cons.mp he with rfl | he
    · rcases hproxy with hpos | hused
      · change proxy.listenerPort = 0 at hzero
        rw [hzero] at hpos
        exact absurd hpos (by decide)
      · exact Or.inl (hused port hport)
    · rcases h.full e he hzero port hport with hused | ⟨d, hd, hnew, heq⟩
      · exact Or.inl hused
      · exact Or.inr ⟨d, List.mem_cons_of_mem _ hd, hnew, heq⟩
  · rw [h.filled_iff, List.exists_mem_cons_iff]
    exact ⟨Or.inr, fun hor => hor.resolve_left hnot⟩

/-- A proxy without a port that is given the free port `port`. -/
theorem Filled.assign {used : List UInt32} {entries : List (ProxyConfig ρ × ProxyConfig ρ)}
    {filled : Bool} {port : UInt32} (h : Filled (port :: used) entries filled)
    {proxy : ProxyConfig ρ} (hzero : proxy.listenerPort = 0) (hrange : port ∈ proxyPortRange)
    (hfree : port ∉ used) :
    Filled used ((proxy, { proxy with listenerPort := port }) :: entries) true := by
  have hport : port ≠ 0 := ne_zero_of_mem_proxyPortRange hrange
  have hnew : Assigned (proxy, { proxy with listenerPort := port }) := ⟨hzero, hport⟩
  refine ⟨?_, ?_, ?_, ?_, ?_, ?_⟩
  · intro e he
    rcases List.mem_cons.mp he with rfl | he
    · rfl
    · exact h.others e he
  · intro e he hpos
    rcases List.mem_cons.mp he with rfl | he
    · rw [hzero] at hpos
      exact absurd hpos (by decide)
    · exact h.preset e he hpos
  · intro e he hassigned
    rcases List.mem_cons.mp he with rfl | he
    · exact ⟨hrange, hfree⟩
    · obtain ⟨hin, hout⟩ := h.fresh e he hassigned
      exact ⟨hin, fun hused => hout (List.mem_cons_of_mem _ hused)⟩
  · refine List.Pairwise.cons ?_ h.distinct
    intro e he _ hassigned heq
    -- the port is among the used ones when the rest is filled
    exact (h.fresh e he hassigned).2 (heq ▸ List.mem_cons_self)
  · intro e he hnone p hp
    rcases List.mem_cons.mp he with rfl | he
    · exact absurd hnone hport
    · rcases h.full e he hnone p hp with hused | ⟨d, hd, hassigned, heq⟩
      · rcases List.mem_cons.mp hused with rfl | hused
        · exact Or.inr ⟨_, List.mem_cons_self, hnew, rfl⟩
        · exact Or.inl hused
      · exact Or.inr ⟨d, List.mem_cons_of_mem _ hd, hassigned, heq⟩
  · exact ⟨fun _ => ⟨_, List.mem_cons_self, hnew⟩, fun _ => rfl⟩

theorem fillPorts_length (used : List UInt32) (proxies : List (ProxyConfig ρ)) :
    (fillPorts used proxies).1.length = proxies.length := by
  induction proxies generalizing used with
  | nil => rfl
  | cons proxy proxies ih =>
      rw [fillPorts]
      split
      · simp [ih]
      · split <;> simp [ih]

/-- The loop over the proxies, from any set of used ports on. -/
theorem filled_fillPorts (used : List UInt32) (proxies : List (ProxyConfig ρ)) :
    Filled used (proxies.zip (fillPorts used proxies).1) (fillPorts used proxies).2 := by
  induction proxies generalizing used with
  | nil => exact Filled.nil used
  | cons proxy proxies ih =>
      rw [fillPorts]
      split
      case isTrue hpos => exact (ih used).keep proxy (Or.inl hpos)
      case isFalse hpos =>
        have hzero : proxy.listenerPort = 0 := by
          rw [UInt32.lt_iff_toNat_lt] at hpos
          exact UInt32.toNat_inj.mp (by simpa using hpos)
        split
        case h_1 port hfind =>
          have hfree : port ∉ used := by simpa using List.find?_some hfind
          exact (ih (port :: used)).assign hzero (List.mem_of_find?_eq_some hfind) hfree
        case h_2 hnone =>
          refine (ih used).keep proxy (Or.inr ?_)
          intro port hport
          simpa using List.find?_eq_none.mp hnone port hport

/-- `FillProxyListenerPorts` over any list of proxies: nothing but ports without a value
is changed, the ports given are in the range, unlike all preset ports and unlike each
other, one that stays without a port finds the whole range in use, and the result tells
whether a port was given. -/
theorem fillProxyListenerPorts_spec (proxies : List (ProxyConfig ρ)) :
    let after := (fillProxyListenerPorts proxies).1
    let entries := proxies.zip after
    after.length = proxies.length ∧
    (∀ e ∈ entries, e.2 = { e.1 with listenerPort := e.2.listenerPort } ∧
      (0 < e.1.listenerPort → e.2.listenerPort = e.1.listenerPort)) ∧
    (∀ e ∈ entries, Assigned e → 50001 ≤ e.2.listenerPort ∧ e.2.listenerPort < 51000 ∧
      ∀ proxy ∈ proxies, proxy.listenerPort ≠ e.2.listenerPort) ∧
    (entries.Pairwise fun d e =>
      Assigned d → Assigned e → d.2.listenerPort ≠ e.2.listenerPort) ∧
    (∀ e ∈ entries, e.2.listenerPort = 0 → ∀ port, 50001 ≤ port → port < 51000 →
      ∃ proxy ∈ after, proxy.listenerPort = port) ∧
    ((fillProxyListenerPorts proxies).2 = true ↔ ∃ e ∈ entries, Assigned e) := by
  intro after entries
  have hlength : after.length = proxies.length := fillPorts_length _ proxies
  have h : Filled ((proxies.map ProxyConfig.listenerPort).filter (0 < ·)) entries
      (fillProxyListenerPorts proxies).2 := filled_fillPorts _ proxies
  refine ⟨hlength, fun e he => ⟨h.others e he, h.preset e he⟩, ?_, h.distinct, ?_, h.filled_iff⟩
  · intro e he hnew
    obtain ⟨hin, hout⟩ := h.fresh e he hnew
    obtain ⟨hfrom, hbelow⟩ := mem_proxyPortRange.mp hin
    refine ⟨hfrom, hbelow, ?_⟩
    intro proxy hproxy heq
    refine hout (List.mem_filter.mpr ⟨heq ▸ List.mem_map_of_mem hproxy, ?_⟩)
    simpa [UInt32.lt_iff_toNat_lt, Nat.pos_iff_ne_zero] using
      mt UInt32.toNat_inj.mp (ne_zero_of_mem_proxyPortRange hin)
  · intro e he hzero port hfrom hbelow
    have hport : port ∈ proxyPortRange := mem_proxyPortRange.mpr ⟨hfrom, hbelow⟩
    rcases h.full e he hzero port hport with hused | ⟨d, hd, -, heq⟩
    · obtain ⟨hmem, hpos⟩ := List.mem_filter.mp hused
      obtain ⟨proxy, hproxy, rfl⟩ := List.mem_map.mp hmem
      obtain ⟨i, hi, rfl⟩ := List.mem_iff_getElem.mp hproxy
      have hiafter : i < after.length := hlength ▸ hi
      have hentry : (proxies[i], after[i]) ∈ entries :=
        List.mem_iff_getElem.mpr ⟨i, by simp [entries, hi, hiafter], by simp [entries]⟩
      exact ⟨after[i], List.getElem_mem hiafter, h.preset _ hentry (by simpa using hpos)⟩
    · exact ⟨d.2, (List.of_mem_zip hd).2, heq⟩

end Higress.Registry
