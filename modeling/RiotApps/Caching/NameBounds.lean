import RiotApps.Caching.Exits

namespace RiotApps.Caching

variable {L : CcnLite} {cfg : Config} {env : Env} {n : Node} {face : Int} {pkt : Pkt}

theorem bind_eq_error {ε α β : Type} {x : Except ε α} {f : α → Except ε β} {e : ε} :
    (x >>= f) = .error e ↔ x = .error e ∨ ∃ a, x = .ok a ∧ f a = .error e := by
  cases x with
  | error e' => simp [bind, Except.bind]
  | ok a => simp [bind, Except.bind]

/-- `_ccnl_helper_handle_content` reads component 3 of the content and, to make room, of
every entry. -/
def HandleReadable (env : Env) (n : Node) (pkt : Pkt) : Prop :=
  env.contentNew = true → pkt.pfx.Named ∧
    (env.add2cache = true → n.full → ∀ e ∈ n.contents, e.pkt.pfx.Named)

def OwnReadable (env : Env) (n : Node) (pkt : Pkt) : Prop :=
  2 < pkt.pfx.comp.length ∧
    (Mine n pkt → env.contentNew = true → env.add2cache = true → n.full →
      pkt.pfx.Named ∧ ∀ e ∈ n.contents, e.pkt.pfx.Named)

def ChunkReadable (L : CcnLite) (env : Env) (n : Node) (pkt : Pkt) : Prop :=
  pkt.contlen = sizeofDowContent → isDup n pkt = false →
    (∃ pit, answeredPit L n pkt = .ok pit) → HandleReadable env n pkt

def ForeignReadable (cfg : Config) (env : Env) (n : Node) (pkt : Pkt) : Prop :=
  (n.dowManualId = true → 2 < pkt.pfx.comp.length) ∧
    (n.dowManualId = false → n.dowIsRegistered = true → 1 < pkt.pfx.comp.length) ∧
    (Wanted cfg env n pkt → HandleReadable env n pkt)

def InBounds (L : CcnLite) (cfg : Config) (env : Env) (n : Node) (face : Int) (pkt : Pkt) :
    Prop :=
  Unclaimed L cfg n face pkt →
    if (n.wake cfg).dowState ≠ .deputy then OwnReadable env n pkt
    else if cfg.Collects then ChunkReadable L env n pkt
    else ForeignReadable cfg env n pkt

theorem full_congr {m : Node} (hmax : m.maxCacheEntries = n.maxCacheEntries)
    (hlen : m.contents.length = n.contents.length) : m.full ↔ n.full := by
  rw [Node.full, Node.full, hmax, hlen]

theorem named_congr {l m : List Content} (h : m.map (·.pkt) = l.map (·.pkt)) :
    (∀ e ∈ m, e.pkt.pfx.Named) ↔ ∀ e ∈ l, e.pkt.pfx.Named := by
  have hmap : ∀ k : List Content, (∀ e ∈ k, e.pkt.pfx.Named) ↔
      ∀ p ∈ k.map (·.pkt), p.pfx.Named := fun k => by simp
  rw [hmap m, hmap l, h]

theorem handleContent_fault_iff :
    handleContent L cfg env n pkt = .error .comp ↔ ¬ HandleReadable env n pkt := by
  unfold HandleReadable
  cases hnew : env.contentNew with
  | false => simp [handleContent, hnew]
  | true =>
    by_cases hp : pkt.pfx.Named
    · obtain ⟨m, c, hm, heq⟩ := handleContent_spec L cfg n hnew hp
      have hmax : m.maxCacheEntries = n.maxCacheEntries := hm.maxCacheEntries
      have hpkts : m.contents.map (·.pkt) = n.contents.map (·.pkt) := hm.pkts
      have hlen : m.contents.length = n.contents.length := by
        simpa using congrArg List.length hpkts
      rw [heq, hmax]
      by_cases hzero : n.maxCacheEntries = 0
      · simp [hzero, hp, Node.full]
      · rw [if_pos hzero, add2cache_fault_iff, full_congr hmax hlen, named_congr hpkts,
          hm.frame.2]
        simp [hp]
    · rw [handleContent_unnamed hnew hp]
      simp [hp]

theorem removePit_ne_comp {num : Int} (pit : List Interest) :
    removePit L num pit ≠ .error .comp := by
  induction pit with
  | nil => exact nofun
  | cons i rest ih =>
    have hrest : (do return i :: (← removePit L num rest)) ≠ Except.error Fault.comp := by
      intro h
      rcases bind_eq_error.1 h with h | ⟨_, _, h⟩
      · exact ih h
      · cases h
    unfold removePit
    split
    · split
      · exact nofun
      · split
        · exact nofun
        · exact hrest
    · exact hrest

theorem answeredPit_ne_comp : answeredPit L n pkt ≠ .error .comp := by
  unfold answeredPit
  split
  · exact removePit_ne_comp _
  · exact nofun

theorem bind_fault_iff {ε α β : Type} {x : Except ε α} {f : α → Except ε β} {e : ε}
    (hf : ∀ a, f a ≠ .error e) : (x >>= f) = .error e ↔ x = .error e := by
  rw [bind_eq_error]
  exact ⟨fun h => h.resolve_right fun ⟨a, _, ha⟩ => hf a ha, .inl⟩

theorem consumeOwn_fault_iff (hasleep : Asleep cfg n) :
    consumeOwn L cfg env n pkt = .error .comp ↔ ¬ OwnReadable env n pkt := by
  by_cases hlen : 2 < pkt.pfx.comp.length
  · rw [consumeOwn, Prefix.get_of_lt hlen]
    simp only [hasleep.noDebug, true_and]
    change (if _ then _ else _) = _ ↔ _
    by_cases hmine : (pkt.pfx.nth 2).take 8 = hex8 n.dowMyId
    · rw [if_neg (not_not.2 hmine)]
      by_cases hmax : n.maxCacheEntries = 0
      · rw [if_neg (not_not.2 hmax)]
        exact ⟨nofun, fun h => absurd ⟨hlen, fun _ _ _ hfull => absurd hfull.1 (by omega)⟩ h⟩
      · rw [if_pos hmax]
        cases hnew : env.contentNew with
        | false =>
          rw [if_pos rfl]
          exact ⟨nofun, fun h => absurd ⟨hlen, fun _ hn => by simp [hnew] at hn⟩ h⟩
        | true =>
          obtain ⟨u, hflags⟩ := unflagCs_eq (hex8 n.dowMyId) n.contents
          let k : Node := { n with
            contents := n.contents.map (·.unflagIf (ofSource (hex8 n.dowMyId))) }
          have hfull : k.full ↔ n.full := full_congr rfl (by simp [k])
          have hnamed : (∀ e ∈ k.contents, e.pkt.pfx.Named) ↔
              ∀ e ∈ n.contents, e.pkt.pfx.Named := named_congr (by simp [k, Function.comp_def])
          have hown : pkt.toOwn.pkt.pfx.Named ↔ pkt.pfx.Named := Iff.rfl
          rw [if_neg (by simp), hflags]
          change (add2cache L cfg env k pkt.toOwn >>= _) = _ ↔ _
          rw [bind_fault_iff (by intro _; exact nofun), add2cache_fault_iff, hfull, hnamed]
          simp [OwnReadable, Mine, hlen, hmine, hnew, hown]
    · rw [if_pos hmine]
      exact ⟨nofun, fun h => absurd ⟨hlen, fun hm => absurd hm.2 hmine⟩ h⟩
  · rw [consumeOwn, Prefix.get_of_le (Nat.not_lt.1 hlen)]
    exact ⟨fun _ h => hlen h.1, fun _ => rfl⟩

theorem consumeChunk_fault_iff (hcompiles : cfg.Compiles) (hcollects : cfg.Collects) :
    consumeChunk L cfg env n pkt (isDup n pkt) = .error .comp ↔
      ¬ ChunkReadable L env n pkt := by
  unfold consumeChunk ChunkReadable
  by_cases hlen : pkt.contlen = sizeofDowContent
  · simp only [if_pos hlen, if_pos (hcompiles hcollects)]
    cases hpit : answeredPit L n pkt with
    | error f =>
      have hf : f ≠ .comp := fun hf => answeredPit_ne_comp (hf ▸ hpit)
      exact ⟨fun h => absurd (Except.error.inj h) hf, fun h => absurd (by simp) h⟩
    | ok pit =>
      change (if _ then _ else _) = _ ↔ _
      cases hdup : isDup n pkt with
      | true =>
        rw [if_pos rfl]
        exact ⟨nofun, fun h => absurd (by simp) h⟩
      | false =>
        rw [if_neg Bool.false_ne_true, bind_fault_iff (by intro _; exact nofun),
          handleContent_fault_iff]
        have hread : HandleReadable env { n with pit := pit } pkt ↔ HandleReadable env n pkt :=
          Iff.rfl
        simp [hlen, hread]
  · rw [if_neg hlen]
    exact ⟨nofun, fun h => absurd (fun hl => absurd hl hlen) h⟩

theorem handled_fault_iff : (do
      let (m, handled) ← handleContent L cfg env n pkt
      return ⟨m, retOf handled, pkt⟩ : Except Fault Verdict) = .error .comp ↔
    ¬ HandleReadable env n pkt := by
  rw [bind_fault_iff (by intro _; exact nofun), handleContent_fault_iff]

theorem inMyRange_of_lt (h : 2 < pkt.pfx.comp.length) : ∃ b, inMyRange cfg n pkt = .ok b := by
  rw [inMyRange, Prefix.get_of_lt h]
  exact ⟨_, rfl⟩

theorem wantsContent_of_lt (h : n.dowIsRegistered = true → 1 < pkt.pfx.comp.length) :
    ∃ b, wantsContent env n pkt = .ok b := by
  unfold wantsContent
  split
  · rename_i hregistered
    rw [Prefix.get_of_lt (h hregistered)]
    exact ⟨_, rfl⟩
  · exact ⟨_, rfl⟩

theorem consumeForeign_fault_iff :
    consumeForeign L cfg env n pkt = .error .comp ↔ ¬ ForeignReadable cfg env n pkt := by
  unfold consumeForeign ForeignReadable Wanted
  cases hmanual : n.dowManualId with
  | true =>
    rw [if_pos rfl, if_pos rfl]
    by_cases hlen : 2 < pkt.pfx.comp.length
    · obtain ⟨b, hb⟩ : ∃ b, inMyRange cfg n pkt = .ok b := inMyRange_of_lt hlen
      rw [hb]
      cases b with
      | true => exact handled_fault_iff.trans (by simp [hlen])
      | false => exact ⟨nofun, fun h => absurd ⟨fun _ => hlen, nofun, nofun⟩ h⟩
    · have hget : inMyRange cfg n pkt = .error .comp := by
        rw [inMyRange, Prefix.get_of_le (Nat.not_lt.1 hlen)]
        rfl
      rw [hget]
      exact ⟨fun _ h => hlen (h.1 rfl), fun _ => rfl⟩
  | false =>
    rw [if_neg Bool.false_ne_true, if_neg Bool.false_ne_true]
    by_cases hlen : n.dowIsRegistered = true → 1 < pkt.pfx.comp.length
    · obtain ⟨b, hb⟩ : ∃ b, wantsContent env n pkt = .ok b := wantsContent_of_lt hlen
      rw [hb]
      cases b with
      | true =>
        exact handled_fault_iff.trans (not_congr ⟨fun h => ⟨nofun, fun _ => hlen, fun _ => h⟩,
          fun h => h.2.2 rfl⟩)
      | false => exact ⟨nofun, fun h => absurd ⟨nofun, fun _ => hlen, nofun⟩ h⟩
    · obtain ⟨hregistered, hlt⟩ := Classical.not_imp.1 hlen
      have hget : wantsContent env n pkt = .error .comp := by
        rw [wantsContent, if_pos hregistered, Prefix.get_of_le (Nat.not_lt.1 hlt)]
        rfl
      rw [hget]
      exact ⟨fun _ h => hlen (h.2.1 rfl), fun _ => rfl⟩

theorem ccnlriotConsumer_claimed (h : ¬ Unclaimed L cfg n face pkt) :
    ccnlriotConsumer L cfg env n face pkt ≠ .error .comp := by
  unfold ccnlriotConsumer
  split
  · exact nofun
  · rename_i hrunning
    split
    · exact nofun
    · rename_i hfree
      split
      · exact fun hack => answeredPit_ne_comp
          ((bind_fault_iff (by intro _; exact nofun)).1 hack)
      · rename_i hack
        split
        · rename_i hint
          have hdup : contIsDup n.contents pkt = (isDup n pkt, n.contents, pkt) :=
            Prod.ext rfl (contIsDup_restores n.contents pkt)
          rw [hdup]
          dsimp only
          split
          · rename_i hisDup
            exact absurd ⟨⟨hrunning, hfree⟩, hack, fun _ => .inl hisDup⟩ h
          · split
            · exact nofun
            · rename_i hnone
              exact absurd ⟨⟨hrunning, hfree⟩, hack, fun _ => .inr hnone⟩ h
        · rename_i hint
          exact absurd ⟨⟨hrunning, hfree⟩, hack, fun hint' => absurd hint' hint⟩ h

theorem ccnlriotConsumer_in_bounds (hcompiles : cfg.Compiles) :
    ccnlriotConsumer L cfg env n face pkt ≠ .error .comp ↔ InBounds L cfg env n face pkt := by
  by_cases hun : Unclaimed L cfg n face pkt
  · rw [ccnlriotConsumer_unclaimed hun, InBounds, consumeUnmatched]
    by_cases hstate : (n.wake cfg).dowState ≠ .deputy
    · obtain ⟨hasleep, hwake⟩ := Node.wake_asleep hstate
      rw [hwake] at hstate ⊢
      rw [if_pos hstate, if_pos hstate, ne_eq, consumeOwn_fault_iff hasleep, not_not]
      exact ⟨fun h _ => h, fun h => h hun⟩
    · obtain ⟨s, hs⟩ := n.wake_eq cfg
      have hdup : (cfg.dowIntInt && isDup n pkt) = isDup { n with dowState := s } pkt ∨
          ¬ cfg.Collects := by
        by_cases hcollects : cfg.Collects
        · simp [hcompiles hcollects, isDup]
        · exact .inr hcollects
      rw [if_neg hstate, if_neg hstate, hs]
      by_cases hcollects : cfg.Collects
      · rw [if_pos hcollects, if_pos hcollects, hdup.resolve_right (not_not.2 hcollects), ne_eq,
          consumeChunk_fault_iff hcompiles hcollects, not_not]
        exact ⟨fun h _ => h, fun h => h hun⟩
      · rw [if_neg hcollects, if_neg hcollects, ne_eq, consumeForeign_fault_iff, not_not]
        exact ⟨fun h _ => h, fun h => h hun⟩
  · exact ⟨fun _ h => absurd h hun, fun _ => ccnlriotConsumer_claimed hun⟩

theorem reads_in_bounds_iff (hcompiles : cfg.Compiles) :
    ccnlriotConsumer L cfg env n face pkt ≠ .error .comp ↔ InBounds L cfg env n face pkt :=
  ccnlriotConsumer_in_bounds hcompiles

theorem reads_in_bounds_iff_start :
    ccnlriotConsumer .reference (.shipped 3 2147483647) ⟨true, true, true, 0⟩ (.start 7 3) 1
      ⟨0, ⟨[[97], [65], hex8 7, [49]], some 0⟩, [], 0, 13⟩ ≠ .error .comp := by
  refine (reads_in_bounds_iff (by decide)).2 fun _ => ?_
  rw [if_pos (by decide)]
  exact ⟨by decide, fun _ _ _ hfull => absurd hfull (by decide)⟩

/-- A node that is not deputy looks for its id in component 2 of a shorter name. -/
theorem short_name_out_of_bounds :
    ccnlriotConsumer .reference (.shipped 3 2147483647) ⟨true, true, true, 0⟩ (.start 7 3) 1
      ⟨0, ⟨[[97], [65]], some 0⟩, [], 0, 13⟩ = .error .comp := rfl

end RiotApps.Caching
