import RiotApps.Caching.Producer

namespace RiotApps.Caching

variable {L : CcnLite} {env : Env} {n : Node} {face : Int} {pkt : Pkt} {cacheSize j : Nat}
  {longMax : Int}

def UnderAll (L : CcnLite) (pfx : Prefix) : Prop := 1 ≤ L.prefixCmp .match ccnlHelperAllPfx pfx

instance (pfx : Prefix) : Decidable (UnderAll L pfx) := inferInstanceAs (Decidable (_ ≤ _))

structure AsksFor (L : CcnLite) (pfx : Prefix) (j : Nat) : Prop where
  under : UnderAll L pfx
  chunknum : pfx.chunknum = some (j : Int)

instance (pfx : Prefix) : Decidable (AsksFor L pfx j) :=
  decidable_of_iff (UnderAll L pfx ∧ pfx.chunknum = some (j : Int))
    ⟨fun h => ⟨h.1, h.2⟩, fun h => ⟨h.1, h.2⟩⟩

structure Gives (L : CcnLite) (cacheSize : Nat) (n : Node) : Prop where
  unregistered : n.dowIsRegistered = false
  fits : n.contents.length ≤ cacheSize
  named : ∀ c ∈ n.contents, ¬ UnderAll L c.pkt.pfx

instance : Decidable (Gives L cacheSize n) :=
  decidable_of_iff (n.dowIsRegistered = false ∧ n.contents.length ≤ cacheSize ∧
      ∀ c ∈ n.contents, ¬ UnderAll L c.pkt.pfx)
    ⟨fun h => ⟨h.1, h.2.1, h.2.2⟩, fun h => ⟨h.1, h.2, h.3⟩⟩

theorem findChunk_eq (cfg : Config) (h : n.dowIsRegistered = false) {i : Nat}
    (hpos : i ≤ j) (hsize : i ≤ cfg.cacheSize) (failsafe : Option Nat) (l : List Content) :
    ∃ failsafe', findChunk L cfg n j i i failsafe l =
      (min (i + l.length) (min j cfg.cacheSize),
        min (i + l.length) (min j cfg.cacheSize), failsafe') := by
  induction l generalizing i failsafe with
  | nil =>
    refine ⟨failsafe, ?_⟩
    rw [List.length_nil, Nat.add_zero, Nat.min_eq_left (Nat.le_min.2 ⟨hpos, hsize⟩)]
    rfl
  | cons c l ih =>
    have hmine : ofMyPrefix L n c.pkt.pfx = true := by simp [ofMyPrefix, h]
    rw [findChunk, if_pos hmine]
    split
    · rename_i hgo
      obtain ⟨failsafe', hl⟩ := ih (i := i + 1) (by omega) (by omega) (some i)
      exact ⟨failsafe', by rw [hl, List.length_cons, Nat.add_right_comm, Nat.add_assoc]⟩
    · rename_i hstop
      refine ⟨failsafe, ?_⟩
      rw [List.length_cons]
      have hmin : min (i + (l.length + 1)) (min j cfg.cacheSize) = i := by omega
      rw [hmin]

def Node.asked (n : Node) : Node :=
  { n with
    dowMyPrefixInterestCount := n.dowMyPrefixInterestCount + 1
    dowState := .handover }

theorem produceUnmatched_asked (hreg : n.dowIsRegistered = false)
    (hfits : n.contents.length ≤ cacheSize)
    (hstate : n.dowState = .deputy ∨ n.dowState = .handover) (hasks : AsksFor L pkt.pfx j) :
    produceUnmatched L (.deputy cacheSize longMax) env n face pkt =
      .ok (serveChunk (.deputy cacheSize longMax) n.asked face pkt
        (min n.contents.length j) (min n.contents.length j)) := by
  have hawake : n.dowState ≠ .inactive := by rcases hstate with h | h <;> simp [h]
  have hany : produceAny L (.deputy cacheSize longMax) n pkt.pfx = true := by
    have hunder : 1 ≤ L.prefixCmp .match ccnlHelperAllPfx pkt.pfx := hasks.under
    simp [produceAny, hunder, Config.deputy, Config.shipped]
  obtain ⟨failsafe, hwalk⟩ := findChunk_eq (L := L) (.deputy cacheSize longMax)
    (n := n.asked) hreg (Nat.zero_le j) (Nat.zero_le _) none n.contents
  have hmin : min (0 + n.contents.length) (min j cacheSize) = min n.contents.length j := by omega
  rw [show (Config.deputy cacheSize longMax).cacheSize = cacheSize from rfl, hmin] at hwalk
  have hserve : servePos L (.deputy cacheSize longMax) n.asked face pkt j =
      serveChunk (.deputy cacheSize longMax) n.asked face pkt
        (min n.contents.length j) (min n.contents.length j) := by
    unfold servePos
    rw [show n.asked.contents = n.contents from rfl, hwalk]
    rfl
  rw [produceUnmatched, if_neg hawake]
  change Except.bind (.ok n) _ = _
  simp only [Except.bind]
  rw [if_pos hany, if_pos hstate, produceChunk, hasks.chunknum]
  dsimp only
  rw [if_neg (by omega)]
  exact congrArg Except.ok hserve

theorem produceUnmatched_serves {c : Content} (hreg : n.dowIsRegistered = false)
    (hfits : n.contents.length ≤ cacheSize)
    (hstate : n.dowState = .deputy ∨ n.dowState = .handover) (hasks : AsksFor L pkt.pfx j)
    (hc : n.contents[j]? = some c) :
    produceUnmatched L (.deputy cacheSize longMax) env n face pkt =
      .ok ⟨{ n.asked with contents := n.contents.set j { c with pkt := c.pkt.setNum j } }, 0,
        { pkt with pfx := c.pkt.pfx }⟩ := by
  have hlt : j < n.contents.length := (List.getElem?_eq_some_iff.1 hc).1
  have hroom : ¬ (Config.deputy cacheSize longMax).cacheSize ≤ j :=
    Nat.not_le.2 (Nat.lt_of_lt_of_le hlt hfits)
  rw [produceUnmatched_asked hreg hfits hstate hasks, Nat.min_eq_right (Nat.le_of_lt hlt),
    serveChunk, show n.asked.contents[j]? = some c from hc]
  dsimp only
  rw [if_neg hroom]
  rfl

theorem produceUnmatched_acks (hreg : n.dowIsRegistered = false)
    (hfits : n.contents.length ≤ cacheSize)
    (hstate : n.dowState = .deputy ∨ n.dowState = .handover) (hasks : AsksFor L pkt.pfx j)
    (hlast : n.contents.length ≤ j) :
    produceUnmatched L (.deputy cacheSize longMax) env n face pkt =
      .ok ⟨((n.asked.emit (.sendAck face n.contents.length)).post .inactive).freePacket pkt, 1,
        pkt⟩ := by
  rw [produceUnmatched_asked hreg hfits hstate hasks, Nat.min_eq_left hlast, serveChunk,
    show n.asked.contents[n.contents.length]? = none from List.getElem?_eq_none (Nat.le_refl _)]

theorem cached_eq_false (hnamed : ∀ c ∈ n.contents, ¬ UnderAll L c.pkt.pfx)
    (hunder : UnderAll L pkt.pfx) : cached L n.contents pkt.pfx = false := by
  rw [cached, List.any_eq_false]
  intro c hc h
  have heq : c.pkt.pfx = pkt.pfx := (L.prefixCmp_exact _ _).1 (of_decide_eq_true h)
  exact hnamed c hc (heq ▸ hunder)

theorem ccnlriotProducer_cases (cacheSize : Nat) (longMax : Int)
    (hstate : n.dowState = .deputy ∨ n.dowState = .handover) :
    (∃ i, cached L n.contents pkt.pfx = true ∧
      ccnlriotProducer L (.deputy cacheSize longMax) env n face pkt =
        .ok ⟨bounced n i, 0, pkt⟩) ∨
    ccnlriotProducer L (.deputy cacheSize longMax) env n face pkt =
      produceUnmatched L (.deputy cacheSize longMax) env n face pkt := by
  have hrunning : n.dowState ≠ .stopped := by rcases hstate with h | h <;> simp [h]
  have hint : (Config.deputy cacheSize longMax).dowIntInt = true := rfl
  rw [ccnlriotProducer, if_neg hrunning, if_pos hint]
  split
  · rename_i i hpending
    split
    · rename_i hcached
      exact .inl ⟨i, hcached, rfl⟩
    · exact .inr rfl
  · exact .inr rfl

theorem Gives.unmatched (hgives : Gives L cacheSize n)
    (hstate : n.dowState = .deputy ∨ n.dowState = .handover) (hunder : UnderAll L pkt.pfx) :
    ccnlriotProducer L (.deputy cacheSize longMax) env n face pkt =
      produceUnmatched L (.deputy cacheSize longMax) env n face pkt := by
  rcases ccnlriotProducer_cases cacheSize longMax hstate with ⟨i, hcached, -⟩ | heq
  · rw [cached_eq_false hgives.named hunder] at hcached
    cases hcached
  · exact heq

end RiotApps.Caching
