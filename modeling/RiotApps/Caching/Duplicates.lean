import RiotApps.Caching.Consumer
import RiotApps.Lib.Memory

namespace RiotApps.Caching.InMemory

open CellMemory

/-- `struct ccnl_buf_s`: where the data begin, and how many bytes they are. -/
structure BufAt where
  data : Nat
  datalen : Nat
  deriving DecidableEq, Repr

/-- The pointers of `struct ccnl_pkt_s`; `buf` may be `NULL`. -/
structure PktAt where
  buf : Option BufAt
  content : Nat
  deriving DecidableEq, Repr

/-- `&((dow_content_t*) pkt->content)->num` -/
def PktAt.num (p : PktAt) : Nat := p.content + 9

def loadNum (m : Memory Byte) (a : Nat) : BitVec 32 :=
  join32 (m a) (m (a + 1)) (m (a + 2)) (m (a + 3))

def storeNum (m : Memory Byte) (a : Nat) (v : BitVec 32) : Memory Byte := write m a (le32 v)

def sameBuf (m : Memory Byte) (c pkt : PktAt) : Bool :=
  match c.buf, pkt.buf with
  | some b, some b' =>
    b.datalen == b'.datalen && read m b.data b.datalen == read m b'.data b.datalen
  | _, _ => false

def contIsDupLoop (cc : PktAt) (old : BitVec 32) (m : Memory Byte) :
    List PktAt → Bool × Memory Byte
  | [] => (false, storeNum m cc.num old)
  | c :: rest =>
    let cold := loadNum m c.num
    let m := storeNum m c.num (-1)
    if sameBuf m c cc then (true, storeNum (storeNum m cc.num old) c.num cold)
    else contIsDupLoop cc old (storeNum m c.num cold) rest

def contIsDup (m : Memory Byte) (contents : List PktAt) (pkt : PktAt) : Bool × Memory Byte :=
  let old := loadNum m pkt.num
  contIsDupLoop pkt old (storeNum m pkt.num (-1)) contents

def PktAt.PayloadInside (p : PktAt) : Prop :=
  ∃ b ∈ p.buf, b.data ≤ p.content ∧ p.content + sizeofDowContent ≤ b.data + b.datalen

instance (p : PktAt) : Decidable p.PayloadInside :=
  inferInstanceAs (Decidable (∃ b ∈ p.buf, _))

def PktAt.ApartFrom (c pkt : PktAt) : Prop :=
  ∀ b ∈ c.buf, Apart b.data b.datalen pkt.num 4 ∧
    ∀ b' ∈ pkt.buf, Apart b.data b.datalen b'.data b'.datalen

instance (c pkt : PktAt) : Decidable (c.ApartFrom pkt) :=
  inferInstanceAs (Decidable (∀ b ∈ c.buf, _ ∧ ∀ b' ∈ pkt.buf, _))

def PktAt.blanked (m : Memory Byte) (p : PktAt) (b : BufAt) : Bytes :=
  (List.range b.datalen).map fun i =>
    if p.num ≤ b.data + i ∧ b.data + i < p.num + 4 then 255 else m (b.data + i)

variable {m : Memory Byte} {a : Nat} {c pkt : PktAt}

theorem storeNum_loadNum (m : Memory Byte) (a : Nat) : storeNum m a (loadNum m a) = m := by
  have hread : le32 (loadNum m a) = read m a 4 := le32_join32 _ _ _ _
  rw [storeNum, hread, write_read]

theorem storeNum_storeNum (v w : BitVec 32) : storeNum (storeNum m a v) a w = storeNum m a w :=
  write_write rfl

theorem storeNum_comm {b : Nat} (h : Apart a 4 b 4) (v w : BitVec 32) :
    storeNum (storeNum m a v) b w = storeNum (storeNum m b w) a v :=
  write_comm h

theorem loadNum_storeNum_apart {b : Nat} (h : Apart a 4 b 4) (v : BitVec 32) :
    loadNum (storeNum m a v) b = loadNum m b := by
  have hcell : ∀ x, b ≤ x → x < b + 4 → storeNum m a v x = m x := by
    intro x hx hx'
    apply write_apply_of_not_mem
    rw [show (le32 v).length = 4 from rfl]
    unfold Apart at h
    omega
  unfold loadNum
  rw [hcell b (by omega) (by omega), hcell (b + 1) (by omega) (by omega),
    hcell (b + 2) (by omega) (by omega), hcell (b + 3) (by omega) (by omega)]

theorem read_storeNum (m : Memory Byte) (p : PktAt) (b : BufAt) :
    read (storeNum m p.num (-1)) b.data b.datalen = p.blanked m b := by
  have hblank : ∀ x ∈ le32 (-1), x = 255 := by decide
  refine List.map_congr_left fun i hi => ?_
  split
  · obtain ⟨k, hk⟩ := Nat.exists_eq_add_of_le (And.left ‹_›)
    have hlt : k < (le32 (-1)).length := by
      rw [show (le32 (-1)).length = 4 from rfl]
      omega
    rw [hk, storeNum, write_apply_add hlt]
    exact hblank _ (List.getElem_mem hlt)
  · apply write_apply_of_not_mem
    rw [show (le32 (-1)).length = 4 from rfl]
    omega

theorem read_storeNum_apart {v : BitVec 32} {b : BufAt} (h : Apart a 4 b.data b.datalen) :
    read (storeNum m a v) b.data b.datalen = read m b.data b.datalen :=
  read_write_apart h

def PktAt.SameBut (m : Memory Byte) (c pkt : PktAt) : Prop :=
  ∃ b ∈ c.buf, ∃ b' ∈ pkt.buf, b.datalen = b'.datalen ∧ c.blanked m b = pkt.blanked m b'

theorem PktAt.PayloadInside.num (h : c.PayloadInside) :
    ∃ b, c.buf = some b ∧ b.data ≤ c.num ∧ c.num + 4 ≤ b.data + b.datalen := by
  obtain ⟨b, hb, hle, hlt⟩ := h
  unfold sizeofDowContent at hlt
  refine ⟨b, hb, ?_, ?_⟩ <;> unfold PktAt.num <;> omega

theorem PktAt.ApartFrom.nums (hc : c.PayloadInside) (h : c.ApartFrom pkt) :
    Apart c.num 4 pkt.num 4 := by
  obtain ⟨b, hb, hle, hlt⟩ := hc.num
  exact (h b hb).1.mono ⟨hle, hlt⟩ ⟨Nat.le_refl _, Nat.le_refl _⟩

theorem sameBuf_iff (hc : c.PayloadInside) (h : c.ApartFrom pkt) :
    sameBuf (storeNum (storeNum m pkt.num (-1)) c.num (-1)) c pkt = true ↔ c.SameBut m pkt := by
  obtain ⟨b, hb, hle, hlt⟩ := hc.num
  obtain ⟨hnum, hbuf⟩ := h b hb
  have hcread : read (storeNum (storeNum m pkt.num (-1)) c.num (-1)) b.data b.datalen =
      c.blanked m b := by
    rw [storeNum_comm (h.nums hc).symm, read_storeNum_apart hnum.symm, read_storeNum]
  cases hb' : pkt.buf with
  | none => simp [sameBuf, PktAt.SameBut, hb, hb']
  | some b' =>
    have happart : Apart c.num 4 b'.data b'.datalen :=
      (hbuf b' hb').mono ⟨hle, hlt⟩ ⟨Nat.le_refl _, Nat.le_refl _⟩
    have hread : read (storeNum (storeNum m pkt.num (-1)) c.num (-1)) b'.data b'.datalen =
        pkt.blanked m b' := by
      rw [read_storeNum_apart happart, read_storeNum]
    simp only [sameBuf, PktAt.SameBut, hb, hb', Option.mem_some_iff, exists_eq_left']
    by_cases hlen : b.datalen = b'.datalen
    · rw [hcread, hlen, hread]
      simp
    · simp [hlen]

theorem contIsDupLoop_spec {contents : List PktAt} (hpayload : ∀ c ∈ contents, c.PayloadInside)
    (hapart : ∀ c ∈ contents, c.ApartFrom pkt) :
    ((contIsDupLoop pkt (loadNum m pkt.num) (storeNum m pkt.num (-1)) contents).1 = true ↔
      ∃ c ∈ contents, c.SameBut m pkt) ∧
    (contIsDupLoop pkt (loadNum m pkt.num) (storeNum m pkt.num (-1)) contents).2 = m := by
  induction contents with
  | nil => simp [contIsDupLoop, storeNum_storeNum, storeNum_loadNum]
  | cons c rest ih =>
    obtain ⟨hc, hrest⟩ := List.forall_mem_cons.1 hpayload
    obtain ⟨hcapart, hrestapart⟩ := List.forall_mem_cons.1 hapart
    have hnums := hcapart.nums hc
    have hcold : loadNum (storeNum m pkt.num (-1)) c.num = loadNum m c.num :=
      loadNum_storeNum_apart hnums.symm _
    have hback : storeNum (storeNum (storeNum m pkt.num (-1)) c.num (-1)) c.num
        (loadNum m c.num) = storeNum m pkt.num (-1) := by
      rw [storeNum_storeNum, ← hcold, storeNum_loadNum]
    have hsame := sameBuf_iff (m := m) hc hcapart
    by_cases hbut : c.SameBut m pkt
    · simp only [contIsDupLoop, hcold, if_pos (hsame.2 hbut)]
      refine ⟨iff_of_true trivial ⟨c, List.mem_cons_self .., hbut⟩, ?_⟩
      rw [storeNum_comm hnums, storeNum_storeNum, storeNum_storeNum, storeNum_loadNum,
        storeNum_loadNum]
    · simp only [contIsDupLoop, hcold, if_neg (hbut ∘ hsame.1), hback]
      obtain ⟨hiff, hmem⟩ := ih hrest hrestapart
      refine ⟨hiff.trans ?_, hmem⟩
      simp only [List.exists_mem_cons_iff, or_iff_right hbut]

theorem contIsDup_spec (m : Memory Byte) (contents : List PktAt) (pkt : PktAt)
    (hpayload : ∀ c ∈ contents, c.PayloadInside) (hapart : ∀ c ∈ contents, c.ApartFrom pkt) :
    ((contIsDup m contents pkt).1 = true ↔ ∃ c ∈ contents, c.SameBut m pkt) ∧
    (contIsDup m contents pkt).2 = m :=
  contIsDupLoop_spec hpayload hapart

theorem contIsDup_spec_numbered :
    (contIsDup (fun x => if x = 109 then 1 else 0) [⟨some ⟨100, 13⟩, 100⟩]
      ⟨some ⟨0, 13⟩, 0⟩).1 = true ∧
    (contIsDup (fun x => if x = 109 then 1 else 0) [⟨some ⟨100, 13⟩, 100⟩]
      ⟨some ⟨0, 13⟩, 0⟩).2 = fun x => if x = 109 then 1 else 0 :=
  ⟨by decide, (contIsDup_spec _ _ _ (by decide) (by decide)).2⟩

section Refinement

variable {p : Pkt} {r : PktAt}

def PktAt.Holds (m : Memory Byte) (r : PktAt) (p : Pkt) : Prop :=
  ∃ b ∈ r.buf, read m b.data b.datalen = p.buf ∧ r.content = b.data + p.content ∧
    p.content + sizeofDowContent ≤ p.buf.length

theorem PktAt.Holds.payloadInside (h : r.Holds m p) : r.PayloadInside := by
  obtain ⟨b, hb, hbuf, hcontent, hlen⟩ := h
  rw [← hbuf, length_read] at hlen
  exact ⟨b, hb, by omega, by omega⟩

theorem read_storeNum_inside {o k : Nat} (h : o + 4 ≤ k) (v : BitVec 32) :
    read (storeNum m (a + o) v) a k = store32 (read m a k) o v := by
  apply List.ext_getElem?
  intro i
  by_cases hi : i < k
  · simp only [store32, List.getElem?_set, List.length_set, length_read, getElem?_read hi,
      storeNum, write, le32]
    grind
  · rw [List.getElem?_eq_none (by simpa using hi), List.getElem?_eq_none (by simpa using hi)]

theorem PktAt.Holds.blanked (h : r.Holds m p) :
    ∃ b, r.buf = some b ∧ b.datalen = p.buf.length ∧ r.blanked m b = (p.setNum (-1)).buf := by
  obtain ⟨b, hb, hbuf, hcontent, hlen⟩ := h
  have hdatalen : b.datalen = p.buf.length := by rw [← hbuf, length_read]
  refine ⟨b, hb, hdatalen, ?_⟩
  unfold sizeofDowContent at hlen
  rw [← read_storeNum, PktAt.num, hcontent, Nat.add_assoc,
    read_storeNum_inside (by omega), hbuf]
  rfl

theorem PktAt.Holds.sameBut_iff {q : Pkt} {t : PktAt} (h : r.Holds m p) (h' : t.Holds m q) :
    r.SameBut m t ↔ (p.setNum (-1)).buf = (q.setNum (-1)).buf := by
  obtain ⟨b, hb, hlen, hblank⟩ := h.blanked
  obtain ⟨b', hb', hlen', hblank'⟩ := h'.blanked
  simp only [PktAt.SameBut, hb, hb', Option.mem_some_iff, exists_eq_left', hblank, hblank',
    and_iff_right_iff_imp]
  intro heq
  have hlength := congrArg List.length heq
  simp only [Pkt.setNum, length_store32] at hlength
  rw [hlen, hlen', hlength]

theorem contIsDupLoop_fst (cc : Pkt) (contents : List Content) :
    (Caching.contIsDupLoop cc contents).1 = true ↔
      ∃ c ∈ contents, (c.pkt.setNum (-1)).buf = cc.buf := by
  induction contents with
  | nil => simp [Caching.contIsDupLoop]
  | cons c rest ih =>
    simp only [Caching.contIsDupLoop, List.exists_mem_cons_iff]
    split
    · exact iff_of_true rfl (.inl ‹_›)
    · rw [ih, or_iff_right ‹_›]

theorem contIsDup_refines {store : List (PktAt × Content)}
    (hstore : ∀ e ∈ store, e.1.Holds m e.2.pkt) (hpkt : r.Holds m p)
    (hapart : ∀ e ∈ store, e.1.ApartFrom r) :
    contIsDup m (store.map Prod.fst) r = ((Caching.contIsDup (store.map Prod.snd) p).1, m) := by
  have hpayload : ∀ t ∈ store.map Prod.fst, t.PayloadInside :=
    List.forall_mem_map.2 fun e he => (hstore e he).payloadInside
  have happart : ∀ t ∈ store.map Prod.fst, t.ApartFrom r := List.forall_mem_map.2 hapart
  obtain ⟨hiff, hmem⟩ := contIsDupLoop_spec (m := m) hpayload happart
  refine Prod.ext (Bool.eq_iff_iff.2 ?_) hmem
  refine hiff.trans (Iff.trans ?_ (contIsDupLoop_fst _ _).symm)
  constructor
  · rintro ⟨_, ht, hsame⟩
    obtain ⟨e, he, rfl⟩ := List.mem_map.1 ht
    exact ⟨e.2, List.mem_map_of_mem he, ((hstore e he).sameBut_iff hpkt).1 hsame⟩
  · rintro ⟨_, hc, hsame⟩
    obtain ⟨e, he, rfl⟩ := List.mem_map.1 hc
    exact ⟨e.1, List.mem_map_of_mem he, ((hstore e he).sameBut_iff hpkt).2 hsame⟩

end Refinement

end RiotApps.Caching.InMemory
