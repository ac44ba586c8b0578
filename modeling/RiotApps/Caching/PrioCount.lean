import RiotApps.Caching.Capacity
import RiotApps.Caching.NewestFlag

namespace RiotApps.Caching

open StepSystem

def staticKeys (l : List Content) : List (List Bytes) := (l.filter (·.static)).map (·.key)

structure PrioCounted (cfg : Config) (n : Node) : Prop where
  count : n.dowPrioCacheCnt.toNat = n.contents.countP (·.static)
  bound : n.contents.countP (·.static) ≤ cfg.dowPrioCache
  unique : (staticKeys n.contents).Nodup

def Newest (L : CcnLite) (cfg : Config) (n : Node) (p : Prefix) : Prop :=
  ∀ e ∈ n.contents, newerThan L cfg p (p.ts cfg) e = false

instance (L : CcnLite) (cfg : Config) (n : Node) (p : Prefix) : Decidable (Newest L cfg n p) :=
  inferInstanceAs (Decidable (∀ _ ∈ _, _))

structure StartsPrio (L : CcnLite) (cfg : Config) (n : Node) (p : Prefix) : Prop where
  newest : Newest L cfg n p
  fresh : (removedFrom (ofName L p) n.contents).newestFlag = false
  room : n.dowPrioCacheCnt.toNat < cfg.dowPrioCache

structure InheritsPrio (L : CcnLite) (cfg : Config) (n : Node) (p : Prefix) : Prop where
  newest : Newest L cfg n p
  prioritised : (removedFrom (ofName L p) n.contents).prioFlag = true

/-- The flag is not taken from an entry of the node's own, not given to a content that is not
stored, and not counted beyond eight bits. -/
structure KeepsPrio (L : CcnLite) (cfg : Config) (n : Node) (d : Delivery) : Prop where
  own : Own L cfg n d → ∀ e ∈ n.contents, ofSource (hex8 n.dowMyId) e = true → e.static = false
  stored : Taken L cfg n d →
    StartsPrio L cfg n d.pkt.pfx ∨ InheritsPrio L cfg n d.pkt.pfx →
    d.env.add2cache = true ∧ n.maxCacheEntries ≠ 0
  counted : Taken L cfg n d → StartsPrio L cfg n d.pkt.pfx → n.dowPrioCacheCnt ≠ 255

def PrioNewest (l : List Content) : Prop :=
  ∀ e ∈ l, e.static = true → e.user1 = true ∧ e.pkt.pfx.Named

structure PrioKeys (cfg : Config) (cnt : BitVec 8) (keys : List (List Bytes)) : Prop where
  count : cnt.toNat = keys.length
  bound : keys.length ≤ cfg.dowPrioCache
  unique : keys.Nodup

variable {L : CcnLite} {cfg : Config} {env : Env} {n m k : Node} {d : Delivery} {c e : Content}
  {l : List Content} {cnt : BitVec 8} {keys : List (List Bytes)} {key : List Bytes}
  {q : Content → Bool} {p : Prefix}

theorem length_staticKeys (l : List Content) : (staticKeys l).length = l.countP (·.static) := by
  rw [staticKeys, List.length_map, List.countP_eq_length_filter]

theorem mem_staticKeys : key ∈ staticKeys l ↔ ∃ e ∈ l, e.static = true ∧ e.key = key := by
  simp [staticKeys, and_assoc]

theorem staticKeys_append (l r : List Content) :
    staticKeys (l ++ r) = staticKeys l ++ staticKeys r := by
  simp [staticKeys]

theorem staticKeys_cons (c : Content) (l : List Content) :
    staticKeys (c :: l) = if c.static then c.key :: staticKeys l else staticKeys l := by
  cases h : c.static <;> simp [staticKeys, h]

theorem staticKeys_map {g : Content → Content} (hg : Cosmetic g) (l : List Content) :
    staticKeys (l.map g) = staticKeys l := by
  induction l with
  | nil => rfl
  | cons e l ih => rw [List.map_cons, staticKeys_cons, staticKeys_cons, hg.static, hg.key, ih]

theorem PrioNewest.map {g : Content → Content} (h : PrioNewest l) (hg : Cosmetic g) :
    PrioNewest (l.map g) := by
  intro e he hstatic
  obtain ⟨x, hx, rfl⟩ := List.mem_map.1 he
  rw [hg.user1, hg.pfx]
  exact h x hx (hg.static x ▸ hstatic)

theorem PrioNewest.unflagIf (h : PrioNewest l) : PrioNewest (l.map (·.unflagIf q)) := by
  intro e he hstatic
  obtain ⟨x, hx, rfl⟩ := List.mem_map.1 he
  unfold Content.unflagIf at hstatic ⊢
  split at hstatic
  · exact absurd hstatic (by simp)
  · rename_i hq
    rw [if_neg hq]
    exact h x hx hstatic

theorem staticKeys_unflagIf (hq : ∀ e ∈ l, e.static = true → q e = decide (e.key = key)) :
    staticKeys (l.map (·.unflagIf q)) = (staticKeys l).filter (· ≠ key) := by
  induction l with
  | nil => rfl
  | cons e l ih =>
    have hrest := ih fun x hx => hq x (List.mem_cons_of_mem e hx)
    rw [List.map_cons, staticKeys_cons, staticKeys_cons, hrest]
    cases hstatic : e.static with
    | false =>
      rw [Content.static_unflagIf hstatic]
      rfl
    | true =>
      have he := hq e (by simp) hstatic
      by_cases hkey : e.key = key
      · simp [Content.unflagIf, he, hkey]
      · simp [Content.unflagIf, he, hkey, hstatic]

theorem staticKeys_unflagIf_of_not (hq : ∀ e ∈ l, q e = true → e.static = false) :
    staticKeys (l.map (·.unflagIf q)) = staticKeys l := by
  induction l with
  | nil => rfl
  | cons e l ih =>
    rw [List.map_cons, staticKeys_cons, staticKeys_cons,
      ih fun x hx => hq x (List.mem_cons_of_mem e hx), Content.key_unflagIf]
    cases he : q e with
    | false => rw [show e.unflagIf q = e from if_neg (by simp [he])]
    | true =>
      have hstatic := hq e (by simp) he
      rw [Content.static_unflagIf hstatic, hstatic]

theorem staticKeys_eraseIdx {i : Nat} (h : l[i]? = some e) (hstatic : e.static = false) :
    staticKeys (l.eraseIdx i) = staticKeys l := by
  induction l generalizing i with
  | nil => rfl
  | cons x l ih =>
    cases i with
    | zero =>
      obtain rfl : x = e := Option.some.inj h
      rw [List.eraseIdx_cons_zero, staticKeys_cons, hstatic]
      rfl
    | succ i => rw [List.eraseIdx_cons_succ, staticKeys_cons, staticKeys_cons, ih h]

theorem PrioKeys.perm {keys' : List (List Bytes)} (h : PrioKeys cfg cnt keys)
    (hp : keys'.Perm keys) : PrioKeys cfg cnt keys' :=
  ⟨h.count.trans hp.length_eq.symm, hp.length_eq ▸ h.bound, hp.nodup_iff.2 h.unique⟩

theorem perm_cons_filter (h : keys.Nodup) (hkey : key ∈ keys) :
    (key :: keys.filter (· ≠ key)).Perm keys := by
  have herase : keys.filter (· ≠ key) = keys.erase key := by
    rw [h.erase_eq_filter]
    exact List.filter_congr fun x _ => by rw [bne, beq_eq_decide, decide_not]
  rw [herase]
  exact (List.perm_cons_erase hkey).symm

theorem filter_of_notMem (hkey : key ∉ keys) : keys.filter (· ≠ key) = keys :=
  List.filter_eq_self.2 fun x hx => by
    simp only [decide_eq_true_eq]
    rintro rfl
    exact hkey hx

theorem PrioKeys.moved (h : PrioKeys cfg cnt keys) (hkey : key ∈ keys) :
    PrioKeys cfg cnt (key :: keys.filter (· ≠ key)) :=
  h.perm (perm_cons_filter h.unique hkey)

theorem PrioKeys.insert (h : PrioKeys cfg cnt keys) (hkey : key ∉ keys)
    (hroom : cnt.toNat < cfg.dowPrioCache) (hcounted : cnt ≠ 255) :
    PrioKeys cfg (cnt + 1) (key :: keys) := by
  have hcount := h.count
  have hlt : cnt.toNat ≠ 255 := fun heq => hcounted (BitVec.eq_of_toNat_eq heq)
  refine ⟨?_, ?_, List.nodup_cons.2 ⟨hkey, h.unique⟩⟩
  · have hcnt := cnt.isLt
    rw [BitVec.toNat_add, List.length_cons]
    simp only [BitVec.ofNat_eq_ofNat, BitVec.toNat_ofNat]
    omega
  · rw [List.length_cons]
    omega

theorem ofName_static (hp : p.Named) (h : PrioNewest l) :
    ∀ e ∈ l, e.static = true → ofName L p e = decide (e.key = p.key) :=
  fun e he hstatic => ofName_eq hp (h e he hstatic).2

theorem removedFrom_prioFlag_iff (hp : p.Named) (h : PrioNewest l) :
    (removedFrom (ofName L p) l).prioFlag = true ↔ p.key ∈ staticKeys l := by
  rw [mem_staticKeys]
  simp only [removedFrom, List.any_eq_true, Bool.and_eq_true]
  constructor
  · rintro ⟨e, he, hname, hstatic⟩
    rw [ofName_static hp h e he hstatic] at hname
    exact ⟨e, he, hstatic, of_decide_eq_true hname⟩
  · rintro ⟨e, he, hstatic, hkey⟩
    exact ⟨e, he, (ofName_static hp h e he hstatic).trans (decide_eq_true hkey), hstatic⟩

theorem not_mem_staticKeys (hp : p.Named) (h : PrioNewest l)
    (hfresh : (removedFrom (ofName L p) l).newestFlag = false) : p.key ∉ staticKeys l := by
  rw [mem_staticKeys]
  rintro ⟨e, he, hstatic, hkey⟩
  have hflag : (removedFrom (ofName L p) l).newestFlag = true := by
    simp only [removedFrom, List.any_eq_true, Bool.and_eq_true]
    exact ⟨e, he, (ofName_static hp h e he hstatic).trans (decide_eq_true hkey),
      (h e he hstatic).1⟩
  rw [hfresh] at hflag
  cases hflag

structure Reprioritised (L : CcnLite) (cfg : Config) (n : Node) (p : Prefix) (m : Node)
    (c : Content) : Prop where
  newest : PrioNewest (c :: m.contents)
  keys : PrioKeys cfg m.dowPrioCacheCnt (staticKeys (c :: m.contents))
  maxCacheEntries : m.maxCacheEntries = n.maxCacheEntries
  static : c.static = true → StartsPrio L cfg n p ∨ InheritsPrio L cfg n p

theorem Reprioritised.given (hstatic : c.static = true) (huser1 : c.user1 = true)
    (hnamed : c.pkt.pfx.Named) (hrest : PrioNewest m.contents)
    (hkeys : PrioKeys cfg m.dowPrioCacheCnt (c.key :: staticKeys m.contents))
    (hmax : m.maxCacheEntries = n.maxCacheEntries)
    (hprio : StartsPrio L cfg n p ∨ InheritsPrio L cfg n p) :
    Reprioritised L cfg n p m c := by
  refine ⟨List.forall_mem_cons.2 ⟨fun _ => ⟨huser1, hnamed⟩, hrest⟩, ?_, hmax, fun _ => hprio⟩
  rw [staticKeys_cons, if_pos hstatic]
  exact hkeys

theorem Reprioritised.plain (hplain : c.static = false) (hrest : PrioNewest m.contents)
    (hkeys : PrioKeys cfg m.dowPrioCacheCnt (staticKeys m.contents))
    (hmax : m.maxCacheEntries = n.maxCacheEntries) : Reprioritised L cfg n p m c := by
  have hnot : c.static ≠ true := Bool.eq_false_iff.1 hplain
  refine ⟨List.forall_mem_cons.2 ⟨fun hstatic => absurd hstatic hnot, hrest⟩, ?_, hmax,
    fun hstatic => absurd hstatic hnot⟩
  rw [staticKeys_cons, if_neg hnot]
  exact hkeys

variable {pkt : Pkt}

theorem flagNewest_prio (hprio : 0 < cfg.dowPrioCache) (hp : pkt.pfx.Named)
    (hnewest : PrioNewest n.contents)
    (hkeys : PrioKeys cfg n.dowPrioCacheCnt (staticKeys n.contents))
    (hcounted : StartsPrio L cfg n pkt.pfx → n.dowPrioCacheCnt ≠ 255)
    (hall : Newest L cfg n pkt.pfx)
    (h : flagNewest cfg { n with contents := n.contents.map (·.unflagIf (ofName L pkt.pfx)) }
      (removedFrom (ofName L pkt.pfx) n.contents) pkt.toContent = (m, c)) :
    Reprioritised L cfg n pkt.pfx m c := by
  have hunflag : staticKeys (n.contents.map (·.unflagIf (ofName L pkt.pfx))) =
      (staticKeys n.contents).filter (· ≠ pkt.pfx.key) :=
    staticKeys_unflagIf (ofName_static hp hnewest)
  have hrest : PrioNewest (n.contents.map (·.unflagIf (ofName L pkt.pfx))) := hnewest.unflagIf
  have hprioFlag := removedFrom_prioFlag_iff (L := L) hp hnewest
  unfold flagNewest at h
  dsimp only at h
  rw [if_pos hprio] at h
  split at h
  · rename_i hstarts
    obtain ⟨rfl, rfl⟩ := Prod.mk.inj h
    have hstarts : StartsPrio L cfg n pkt.pfx := ⟨hall, hstarts.1, hstarts.2⟩
    have hkey : pkt.pfx.key ∉ staticKeys n.contents := not_mem_staticKeys hp hnewest hstarts.fresh
    refine .given rfl rfl hp hrest ?_ rfl (.inl hstarts)
    dsimp only
    rw [hunflag, filter_of_notMem hkey]
    exact hkeys.insert hkey hstarts.room (hcounted hstarts)
  · split at h
    · rename_i hflag
      obtain ⟨rfl, rfl⟩ := Prod.mk.inj h
      refine .given rfl rfl hp hrest ?_ rfl (.inr ⟨hall, hflag⟩)
      dsimp only
      rw [hunflag]
      exact hkeys.moved (hprioFlag.1 hflag)
    · rename_i hflag
      obtain ⟨rfl, rfl⟩ := Prod.mk.inj h
      refine .plain rfl hrest ?_ rfl
      dsimp only
      rw [hunflag, filter_of_notMem fun hkey => hflag (hprioFlag.2 hkey)]
      exact hkeys

section Older

variable {pre post : List Content}

theorem staticKeys_older (hp : p.Named) (hnewest : PrioNewest (pre ++ e :: post))
    (hprio : 0 < cfg.dowPrioCache) (hunique : (staticKeys (pre ++ e :: post)).Nodup)
    (he : e.key = p.key) :
    (staticKeys (pre.map (·.unflagIf (ofName L p)) ++
        e.unflag.restore cfg (removedFrom (ofName L p) (pre ++ [e])) :: post)).Perm
      (staticKeys (pre ++ e :: post)) := by
  have hsplit : pre ++ e :: post = (pre ++ [e]) ++ post := by simp
  rw [hsplit] at hnewest hunique
  have hpre : PrioNewest (pre ++ [e]) := fun x hx => hnewest x (List.mem_append_left _ hx)
  have hname := ofName_static (L := L) hp hpre
  have hlast : (staticKeys [e]).filter (· ≠ p.key) = [] := by
    cases hstatic : e.static <;> simp [staticKeys, hstatic, he]
  have hunflag : staticKeys (pre.map (·.unflagIf (ofName L p))) =
      (staticKeys (pre ++ [e])).filter (· ≠ p.key) := by
    rw [staticKeys_append, List.filter_append, hlast, List.append_nil]
    exact staticKeys_unflagIf fun x hx => hname x (List.mem_append_left _ hx)
  have hrestored : (e.unflag.restore cfg (removedFrom (ofName L p) (pre ++ [e]))).static =
      (removedFrom (ofName L p) (pre ++ [e])).prioFlag := by
    simp [Content.restore, hprio]
  have hflag := removedFrom_prioFlag_iff (L := L) hp hpre
  rw [staticKeys_append] at hunique
  rw [hsplit, staticKeys_append, staticKeys_append, staticKeys_cons, hunflag, hrestored,
    Content.key_restore, Content.key_unflag, he]
  by_cases hkey : p.key ∈ staticKeys (pre ++ [e])
  · rw [if_pos (hflag.2 hkey)]
    refine List.perm_middle.trans ?_
    rw [← List.cons_append]
    exact (perm_cons_filter (List.nodup_append.1 hunique).1 hkey).append_right _
  · rw [if_neg fun hprioFlag => hkey (hflag.1 hprioFlag), filter_of_notMem hkey]

theorem prioNewest_older {u : Removed} (hnewest : PrioNewest (pre ++ e :: post))
    (he : e.pkt.pfx.Named) :
    PrioNewest (pre.map (·.unflagIf q) ++ e.unflag.restore cfg u :: post) := by
  have hpre : PrioNewest pre := fun x hx => hnewest x (List.mem_append_left _ hx)
  intro x hx hstatic
  rcases List.mem_append.1 hx with hx | hx
  · exact hpre.unflagIf x hx hstatic
  · rcases List.mem_cons.1 hx with rfl | hx
    · exact ⟨rfl, he⟩
    · exact hnewest x (List.mem_append_right _ (List.mem_cons_of_mem _ hx)) hstatic

end Older

theorem reflag_prio (hprio : 0 < cfg.dowPrioCache) (hp : pkt.pfx.Named)
    (hnewest : PrioNewest n.contents)
    (hkeys : PrioKeys cfg n.dowPrioCacheCnt (staticKeys n.contents))
    (hcounted : StartsPrio L cfg n pkt.pfx → n.dowPrioCacheCnt ≠ 255)
    (h : reflag L cfg n pkt = .ok (m, c)) : Reprioritised L cfg n pkt.pfx m c := by
  rcases reflag_cases L cfg n hp with ⟨hall, heq⟩ | ⟨pre, e, post, hn, hpre, he, heq⟩
  · exact flagNewest_prio hprio hp hnewest hkeys hcounted hall
      (Except.ok.inj (heq.symm.trans h))
  · obtain ⟨rfl, rfl⟩ := Prod.mk.inj (Except.ok.inj (heq.symm.trans h))
    have hnamed := newerThan_named he
    obtain ⟨hkey, -⟩ := newerThan_true hp hnamed he
    refine .plain rfl ?_ ?_ rfl
    · exact prioNewest_older (hn ▸ hnewest) hnamed
    · exact hkeys.perm (hn ▸ staticKeys_older hp (hn ▸ hnewest) hprio (hn ▸ hkeys.unique) hkey)

theorem staticKeys_removeContent {i : Nat} (j : Nat) (h : victimOf cfg n c = some i) :
    staticKeys (removeContent L (firstFull n) i j).contents = staticKeys n.contents ∧
      (PrioNewest n.contents →
        PrioNewest (removeContent L (firstFull n) i j).contents) := by
  obtain ⟨g, hg, hfirst⟩ := firstFull_contents n
  obtain ⟨e, he, hstatic⟩ := victimOf_static h
  have hmap : (n.contents.map g)[i]? = some (g e) := by rw [List.getElem?_map, he]; rfl
  rw [removeContent, L.contentRemove_eq, hfirst]
  refine ⟨?_, fun hnewest x hx => hnewest.map hg x (List.mem_of_mem_eraseIdx hx)⟩
  rw [staticKeys_eraseIdx hmap ((hg.static e).trans hstatic), staticKeys_map hg]

theorem add2cache_prio {stored : Bool} (hnewest : PrioNewest (c :: k.contents))
    (h : add2cache L cfg env k c = .ok (m, stored)) :
    PrioNewest m.contents ∧ m.dowPrioCacheCnt = k.dowPrioCacheCnt ∧
      staticKeys m.contents =
        if env.add2cache then staticKeys (c :: k.contents) else staticKeys k.contents := by
  obtain ⟨hc, hk⟩ := List.forall_mem_cons.1 hnewest
  cases henv : env.add2cache with
  | false =>
    rw [add2cache_refused henv] at h
    cases h
    exact ⟨hk, rfl, rfl⟩
  | true =>
    have hcount : (firstFull (offered k c)).dowPrioCacheCnt = k.dowPrioCacheCnt := by
      unfold firstFull
      split <;> rfl
    have hkeys : ∀ r, staticKeys r = staticKeys k.contents →
        staticKeys (c :: r) = staticKeys (c :: k.contents) := fun r hr => by
      rw [staticKeys_cons, staticKeys_cons, hr]
    rw [if_pos rfl]
    rcases add2cache_cases h with ⟨-, -, hrefused⟩ | ⟨-, l, rfl, rfl | rfl | ⟨i, hv, rfl⟩⟩
    · exact absurd (hrefused.symm.trans henv) Bool.false_ne_true
    · exact ⟨hnewest, rfl, rfl⟩
    · obtain ⟨g, hg, hfirst⟩ := firstFull_contents (offered k c)
      refine ⟨List.forall_mem_cons.2 ⟨hc, ?_⟩, hcount, hkeys _ ?_⟩
      · rw [hfirst]
        exact PrioNewest.map hk hg
      · rw [hfirst]
        exact staticKeys_map hg k.contents
    · obtain ⟨hsame, hrest⟩ := staticKeys_removeContent (L := L)
        ((firstFull (offered k c)).contents.countP (·.user2)) hv
      exact ⟨List.forall_mem_cons.2 ⟨hc, hrest hk⟩, hcount, hkeys _ hsame⟩

structure Prioritised (cfg : Config) (n : Node) : Prop where
  newest : PrioNewest n.contents
  keys : PrioKeys cfg n.dowPrioCacheCnt (staticKeys n.contents)

theorem Prioritised.prioCounted (h : Prioritised cfg n) : PrioCounted cfg n :=
  ⟨h.keys.count.trans (length_staticKeys n.contents),
    length_staticKeys n.contents ▸ h.keys.bound, h.keys.unique⟩

theorem Prioritised.rewritten (h : Prioritised cfg n) (hm : Rewritten n m) :
    Prioritised cfg m := by
  obtain ⟨g, hg, hcontents⟩ := hm.contents
  refine ⟨?_, ?_⟩
  · rw [hcontents]
    exact h.newest.map hg.toCosmetic
  · rw [hcontents, staticKeys_map hg.toCosmetic, hm.dowPrioCacheCnt]
    exact h.keys

theorem Caches.prioritised (hnewest : PrioNewest (c :: k.contents))
    (hkeys : PrioKeys cfg k.dowPrioCacheCnt (staticKeys (c :: k.contents)))
    (hstored : c.static = true → env.add2cache = true ∧ k.maxCacheEntries ≠ 0)
    (h : Caches L cfg env k c m) : Prioritised cfg m := by
  have hrest : PrioNewest k.contents := (List.forall_mem_cons.1 hnewest).2
  have hunstored : c.static = false → staticKeys (c :: k.contents) = staticKeys k.contents :=
    fun hstatic => by simp [staticKeys_cons, hstatic]
  cases h with
  | closed hmax =>
    have hstatic : c.static = false := by
      rw [← Bool.not_eq_true]
      exact fun hstatic => (hstored hstatic).2 hmax
    exact ⟨hrest, hunstored hstatic ▸ hkeys⟩
  | asked hmax hadd =>
    obtain ⟨hm, hcount, hsame⟩ := add2cache_prio hnewest hadd
    refine ⟨hm, ?_⟩
    rw [hcount, hsame]
    split
    · exact hkeys
    · rename_i hrefused
      have hstatic : c.static = false := by
        rw [← Bool.not_eq_true]
        exact fun hstatic => hrefused (hstored hstatic).1
      exact hunstored hstatic ▸ hkeys

theorem Alike.newest (h : Alike n k) (hk : Newest L cfg k p) : Newest L cfg n p :=
  fun e he => hk e (h.contents.symm ▸ he)

theorem Alike.startsPrio (h : Alike n k) (hk : StartsPrio L cfg k p) : StartsPrio L cfg n p :=
  ⟨h.newest hk.newest, h.contents ▸ hk.fresh, h.dowPrioCacheCnt ▸ hk.room⟩

theorem Alike.inheritsPrio (h : Alike n k) (hk : InheritsPrio L cfg k p) :
    InheritsPrio L cfg n p :=
  ⟨h.newest hk.newest, h.contents ▸ hk.prioritised⟩

theorem deliver_prioritised (hcompiles : cfg.Compiles) (hprio : 0 < cfg.dowPrioCache)
    (h : Prioritised cfg n) (hok : KeepsPrio L cfg n d) (hm : deliver L cfg n d = some m) :
    Prioritised cfg m := by
  cases deliver_submitted hcompiles hm with
  | kept hn => exact h.rewritten hn
  | @own k m' hown hk hcaches hm =>
    have hplain : d.pkt.toOwn.static ≠ true := Bool.false_ne_true
    have hnewest : PrioNewest (d.pkt.toOwn :: k.contents) := by
      rw [hk.contents]
      exact List.forall_mem_cons.2
        ⟨fun hstatic => absurd hstatic hplain, h.newest.unflagIf⟩
    have hkeys : PrioKeys cfg k.dowPrioCacheCnt (staticKeys (d.pkt.toOwn :: k.contents)) := by
      rw [staticKeys_cons, if_neg hplain, hk.contents, hk.dowPrioCacheCnt]
      dsimp only
      rw [staticKeys_unflagIf_of_not (hok.own hown)]
      exact h.keys
    exact (hcaches.prioritised hnewest hkeys fun hstatic => absurd hstatic hplain).rewritten hm
  | @taken k k' m' c htaken hk hnamed hreflag hcaches hm =>
    have hprioritised := reflag_prio hprio hnamed (hk.contents ▸ h.newest)
      (by rw [hk.contents, hk.dowPrioCacheCnt]; exact h.keys)
      (fun hstarts => hk.dowPrioCacheCnt ▸ hok.counted htaken (hk.startsPrio hstarts)) hreflag
    have hnewest : PrioNewest ({ c with user2 := true } :: k'.contents) :=
      List.forall_mem_cons.2 (List.forall_mem_cons.1 hprioritised.newest)
    have hkeys : PrioKeys cfg k'.dowPrioCacheCnt
        (staticKeys ({ c with user2 := true } :: k'.contents)) := by
      have hkeys := hprioritised.keys
      rwa [staticKeys_cons] at hkeys ⊢
    refine (hcaches.prioritised hnewest hkeys fun hstatic => ?_).rewritten hm
    rw [hprioritised.maxCacheEntries, hk.maxCacheEntries]
    exact hok.stored htaken ((hprioritised.static hstatic).imp hk.startsPrio hk.inheritsPrio)

/-- The prioritised entries are counted correctly in every run that takes the flag from no
content of the node's own and gives it to no content that is not stored. -/
theorem prio_counted (hcompiles : cfg.Compiles) (hprio : 0 < cfg.dowPrioCache) {n₀ : Node}
    (hempty : n₀.contents = []) (hzero : n₀.dowPrioCacheCnt = 0) {ds : List Delivery}
    (hok : Along (deliver L cfg) (KeepsPrio L cfg) n₀ ds)
    (hn : run (deliver L cfg) n₀ ds = some n) : PrioCounted cfg n := by
  have hstart : Prioritised cfg n₀ := by
    refine ⟨by simp [hempty, PrioNewest], ?_⟩
    rw [hempty, hzero]
    exact ⟨rfl, Nat.zero_le _, List.nodup_nil⟩
  exact (run_invariant (fun _ _ _ hn hok => deliver_prioritised hcompiles hprio hn hok) hok hstart
    hn).prioCounted

def onePrio : Config := { Config.shipped 3 2147483647 with dowPrioCache := 1 }

def ownContent (deputy : Bool) (ts : Bytes) : Delivery where
  deputy := deputy
  env := ⟨true, true, true, 0⟩
  face := 1
  pkt := ⟨0, ⟨[[97], [65], hex8 7, ts], some 0⟩, [], 0, 13⟩

def StoresOthers (n : Node) (d : Delivery) : Prop :=
  (∀ e ∈ n.contents, ofSource (hex8 n.dowMyId) e = true → e.static = false) ∧
    d.env.add2cache = true ∧ n.maxCacheEntries ≠ 0 ∧ n.dowPrioCacheCnt ≠ 255

instance (n : Node) (d : Delivery) : Decidable (StoresOthers n d) :=
  inferInstanceAs (Decidable (_ ∧ _))

theorem StoresOthers.keepsPrio (h : StoresOthers n d) : KeepsPrio L cfg n d := by
  obtain ⟨hown, hstores, hmax, hcount⟩ := h
  exact ⟨fun _ => hown, fun _ _ => ⟨hstores, hmax⟩, fun _ _ => hcount⟩

/-- The second value of a name takes over its flag; the node, inactive, makes one of its own; and
the first value has to go for one of another name. -/
theorem prio_counted_evicting : ∃ n,
    run (deliver .reference onePrio) (.start 7 3)
      [contentOf 65 [49], contentOf 65 [50], ownContent false [49], contentOf 66 [51]] = some n ∧
    n.contents.map (fun e => (e.key, e.static)) =
      [([[97], [66], [48]], false), ([[97], [65], hex8 7], false), ([[97], [65], [48]], true)] ∧
    n.dowPrioCacheCnt = 1 ∧ PrioCounted onePrio n := by
  have hrun : (run (deliver .reference onePrio) (.start 7 3) [contentOf 65 [49],
      contentOf 65 [50], ownContent false [49], contentOf 66 [51]]).map
        (fun n => (n.contents.map (fun e => (e.key, e.static)), n.dowPrioCacheCnt)) =
      some ([([[97], [66], [48]], false), ([[97], [65], hex8 7], false),
        ([[97], [65], [48]], true)], 1) := by decide +kernel
  obtain ⟨n, hn, heq⟩ := Option.map_eq_some_iff.1 hrun
  obtain ⟨hcontents, hcount⟩ := Prod.mk.inj heq
  have hstores : Along (deliver .reference onePrio) StoresOthers (.start 7 3)
      [contentOf 65 [49], contentOf 65 [50], ownContent false [49], contentOf 66 [51]] := by
    decide +kernel
  exact ⟨n, hn, hcontents, hcount,
    prio_counted (by decide) (by decide) rfl rfl
      (hstores.mono fun _ _ h => StoresOthers.keepsPrio h) hn⟩

/-- A content of its own is prioritised while the node is deputy, and loses the flag to the next
one when the node is inactive: the counter stays. -/
theorem prio_miscounted : ∃ ds n, WellNamed onePrio ds ∧
    run (deliver .reference onePrio) (.start 7 3) ds = some n ∧
    n.dowPrioCacheCnt = 1 ∧ n.contents.countP (·.static) = 0 ∧ ¬ PrioCounted onePrio n := by
  have hrun : (run (deliver .reference onePrio) (.start 7 3)
      [ownContent true [49], ownContent false [50]]).map
        (fun n => (n.dowPrioCacheCnt, n.contents.countP (·.static))) = some (1, 0) := by
    decide +kernel
  obtain ⟨n, hn, heq⟩ := Option.map_eq_some_iff.1 hrun
  obtain ⟨hcount, hnone⟩ := Prod.mk.inj heq
  refine ⟨_, n, ?_, hn, hcount, hnone, fun h => ?_⟩
  · constructor <;> decide +kernel
  · have hsame := h.count
    rw [hcount, hnone] at hsame
    exact absurd hsame (by decide)

end RiotApps.Caching
