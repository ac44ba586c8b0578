import RiotApps.Caching.OwnData
import RiotApps.Caching.Submission

namespace RiotApps.Caching

def Pkt.movedTo (p : Pkt) (addr : Nat) : Pkt := { p with addr := addr }

def Pkt.stamp (p : Pkt) : Pkt := (p.setNum (-1)).movedTo 0

def stamps (l : List Content) : List Pkt := l.map (·.pkt.stamp)

structure Issued (id data : BitVec 32) (p : Pkt) : Prop where
  named : ∃ a b : Bytes, p.pfx.comp = [a, b, hex8 id, hex8 data] ∧ a ≠ [42]
  value : (p.buf.drop p.content).take 9 = hex8 data ++ [0]
  contlen : p.contlen = sizeofDowContent

def Sys.arriving (s : Sys) : Event → Option Pkt
  | .packet (.content _ _ pkt _) => some pkt
  | .packet (.loopback _ _ addr _) => s.looped addr
  | _ => none

variable {L : CcnLite} {cfg : Config} {env : Env} {p q : Pkt} {n m : Node} {face : Int}
  {v : Verdict} {s t : Sys}

@[simp] theorem stamp_setNum (p : Pkt) (k : Int) : (p.setNum k).stamp = p.stamp := by
  simp [Pkt.stamp, Pkt.setNum_setNum]

@[simp] theorem stamp_movedTo (p : Pkt) (addr : Nat) : (p.movedTo addr).stamp = p.stamp := rfl

theorem pfx_of_stamp (h : p.stamp = q.stamp) : p.pfx = q.pfx :=
  (congrArg Pkt.pfx h :)

theorem mem_stamps {l : List Content} {c : Content} (h : c ∈ l) : c.pkt.stamp ∈ stamps l :=
  List.mem_map_of_mem h

theorem stamps_map {g : Content → Content} (hg : ∀ c, (g c).pkt.stamp = c.pkt.stamp)
    (l : List Content) : stamps (l.map g) = stamps l := by
  simp only [stamps, List.map_map, Function.comp_def, hg]

theorem stamps_eraseIdx (l : List Content) (i : Nat) : stamps (l.eraseIdx i) ⊆ stamps l :=
  List.map_subset _ (List.eraseIdx_subset ..)

theorem stamps_firstFull (n : Node) : stamps (firstFull n).contents = stamps n.contents := by
  unfold firstFull
  split
  · rfl
  · exact stamps_map (g := fun c => { c with user2 := false }) (fun _ => rfl) n.contents

theorem add2cache_stamps {c : Content} {stored : Bool}
    (h : add2cache L cfg env n c = .ok (m, stored)) :
    stamps m.contents ⊆ c.pkt.stamp :: stamps n.contents := by
  have hfirst : stamps (firstFull (offered n c)).contents = stamps n.contents :=
    stamps_firstFull _
  rcases add2cache_cases h with ⟨-, rfl, -⟩ | ⟨-, k, rfl, rfl | rfl | ⟨i, -, rfl⟩⟩
  · exact List.subset_cons_self _ _
  · exact List.Subset.refl _
  · exact List.cons_subset_cons _ fun _ hp => hfirst ▸ hp
  · refine List.cons_subset_cons _ ?_
    rw [removeContent, L.contentRemove_eq]
    exact fun _ hp => hfirst ▸ stamps_eraseIdx _ i hp

theorem handleContent_stamps {handled : Bool}
    (h : handleContent L cfg env n p = .ok (m, handled)) :
    stamps m.contents ⊆ p.stamp :: stamps n.contents := by
  cases hnew : env.contentNew with
  | false =>
    rw [handleContent, if_pos hnew] at h
    cases h
    exact List.subset_cons_self _ _
  | true =>
    obtain ⟨hnamed, k, c, hreflag, hcaches⟩ := handleContent_caches hnew h
    have hk : Reflagged L cfg { n with pit := L.contentServePending n.pit p } p k c :=
      .of_eq hnamed hreflag
    have hstore : stamps k.contents = stamps n.contents := by
      have hpkts := congrArg (List.map Pkt.stamp) hk.pkts
      simpa [stamps, Function.comp_def] using hpkts
    cases hcaches with
    | closed => exact hstore ▸ List.subset_cons_self _ _
    | asked _ hadd =>
      have hstored : stamps m.contents ⊆ c.pkt.stamp :: stamps k.contents :=
        add2cache_stamps (c := { c with user2 := true }) hadd
      rwa [hk.frame.2, hstore] at hstored

theorem stamps_finishChunk (n : Node) (res : Int) (p : Pkt) :
    stamps (finishChunk n res p).node.contents = stamps n.contents := by
  have hclear : ∀ k : Node, stamps (k.clearNum p).contents = stamps k.contents := fun k =>
    stamps_map (fun e => by split <;> simp) k.contents
  unfold finishChunk
  dsimp only
  split
  · exact (hclear _).trans rfl
  · exact hclear n

theorem Exit.stamps_subset (h : Exit L cfg env n face p v) :
    stamps v.node.contents ⊆ p.stamp :: stamps n.contents ∧ v.pkt.stamp = p.stamp ∧
      (Acks L p → stamps v.node.contents = stamps n.contents ∧ v.ret = 1) := by
  have hkeep : stamps n.contents ⊆ p.stamp :: stamps n.contents := List.subset_cons_self _ _
  have hwake : stamps (n.wake cfg).contents = stamps n.contents := by
    obtain ⟨s, hs⟩ := n.wake_eq cfg
    rw [hs]
  cases h with
  | deaf => exact ⟨hkeep, rfl, fun _ => ⟨rfl, rfl⟩⟩
  | ack => exact ⟨hkeep, rfl, fun _ => ⟨rfl, rfl⟩⟩
  | pending _ hack => exact ⟨hkeep, rfl, fun h => absurd h hack⟩
  | notMine hun | ownUncached hun | ownDoomed hun =>
    exact ⟨hkeep, rfl, fun h => absurd h hun.notAck⟩
  | @ownOffered contents u m stored hun _ _ _ _ hflags hadd =>
    refine ⟨?_, rfl, fun h => absurd h hun.notAck⟩
    obtain ⟨u', heq⟩ := unflagCs_eq (hex8 n.dowMyId) n.contents
    rw [heq] at hflags
    cases hflags
    have hstore : stamps m.contents ⊆ p.stamp :: stamps n.contents := by
      have hunflagged := stamps_map (g := (·.unflagIf (ofSource (hex8 n.dowMyId))))
        (fun e => by simp) n.contents
      exact hunflagged ▸ add2cache_stamps hadd
    cases stored <;> simpa [Node.freePacket, Node.emit] using hstore
  | wrongLength hun | unwanted hun | outOfRange hun =>
    exact ⟨hwake ▸ hkeep, rfl, fun h => absurd h hun.notAck⟩
  | @duplicate pit hun =>
    refine ⟨?_, stamp_setNum p _, fun h => absurd h hun.notAck⟩
    rw [stamps_finishChunk]
    exact hwake ▸ hkeep
  | @chunk pit m handled hun _ _ _ _ _ hm =>
    refine ⟨?_, stamp_setNum p _, fun h => absurd h hun.notAck⟩
    rw [stamps_finishChunk]
    have hpit : stamps ({ n.wake cfg with pit := pit } : Node).contents = stamps n.contents :=
      hwake
    exact hpit ▸ handleContent_stamps hm
  | foreign hun _ _ _ hm =>
    exact ⟨hwake ▸ handleContent_stamps hm, rfl, fun h => absurd h hun.notAck⟩

theorem coreContent_stamps {core : Core} (h : coreContent L cfg env n p core = .ok m) :
    stamps m.contents ⊆ p.stamp :: stamps n.contents := by
  unfold coreContent at h
  dsimp only at h
  split at h
  · obtain ⟨⟨k, stored⟩, hk, h⟩ := bind_eq_ok.1 h
    have hstored : stamps k.contents ⊆ p.stamp :: stamps n.contents := add2cache_stamps hk
    cases stored with
    | true | false =>
      cases h
      exact hstored
  · cases h
    exact List.subset_cons_self _ _

theorem receiveContent_stamps {core : Core} (hcompiles : cfg.Compiles)
    (h : receiveContent L cfg env n face p core = .ok m) :
    ∀ x ∈ stamps m.contents, x ∈ stamps n.contents ∨ ¬ Acks L p ∧ x = p.stamp := by
  unfold receiveContent at h
  obtain ⟨v, hv, h⟩ := bind_eq_ok.1 h
  obtain ⟨hsub, hpkt, hack⟩ := (ccnlriotConsumer_exit hcompiles hv).stamps_subset
  have hm : stamps m.contents ⊆ p.stamp :: stamps n.contents ∧
      (v.ret = 1 → m = v.node) := by
    split at h
    · rename_i hret
      refine ⟨fun x hx => ?_, fun h1 => absurd (hret.symm.trans h1) (by decide)⟩
      rcases List.mem_cons.1 (coreContent_stamps h hx) with rfl | hx
      · exact hpkt ▸ List.mem_cons_self
      · exact hsub hx
    · cases h
      exact ⟨hsub, fun _ => rfl⟩
  intro x hx
  by_cases hacks : Acks L p
  · obtain ⟨hsame, hret⟩ := hack hacks
    rw [hm.2 hret, hsame] at hx
    exact .inl hx
  · exact (List.mem_cons.1 (hm.1 hx)).symm.imp_right fun h => ⟨hacks, h⟩

theorem serveChunk_stamps (n : Node) (face : Int) (p : Pkt) (i at_ : Nat) :
    stamps (serveChunk cfg n face p i at_).node.contents = stamps n.contents := by
  unfold serveChunk
  split
  · rename_i c hc
    split
    · rfl
    · exact map_set_of_eq hc (stamp_setNum c.pkt i)
  · rfl

theorem servePos_stamps (n : Node) (face : Int) (p : Pkt) (pos : Int) :
    stamps (servePos L cfg n face p pos).node.contents = stamps n.contents := by
  unfold servePos
  dsimp only
  split
  · split
    · exact serveChunk_stamps n face p _ _
    · rfl
  · exact serveChunk_stamps n face p _ _

theorem produceChunk_stamps (h : produceChunk L cfg env n face p = .ok v) :
    stamps v.node.contents = stamps n.contents := by
  unfold produceChunk at h
  dsimp only at h
  split at h
  · cases h
    rfl
  · split at h
    · cases h
      rfl
    · obtain ⟨pos, -, h⟩ := bind_eq_ok.1 h
      cases h
      rw [servePos_stamps]
      unfold Node.handOver
      split <;> rfl

theorem countInterest_contents {pfx : Prefix} (h : countInterest L cfg n pfx = .ok m) :
    m.contents = n.contents := by
  unfold countInterest at h
  split at h
  · obtain ⟨c, -, h⟩ := bind_eq_ok.1 h
    cases h
    rfl
  · cases h
    rfl

theorem produceUnmatched_stamps (h : produceUnmatched L cfg env n face p = .ok v) :
    stamps v.node.contents = stamps n.contents := by
  unfold produceUnmatched at h
  split at h
  · cases h
    rfl
  · obtain ⟨k, hk, h⟩ := bind_eq_ok.1 h
    rw [← countInterest_contents hk]
    split at h
    · split at h
      · exact produceChunk_stamps h
      · cases h
        rfl
    · split at h
      · cases h
        rfl
      · split at h <;> · cases h
                         rfl

theorem ccnlriotProducer_stamps (h : ccnlriotProducer L cfg env n face p = .ok v) :
    stamps v.node.contents = stamps n.contents := by
  unfold ccnlriotProducer at h
  split at h
  · cases h
    rfl
  · split at h
    · split at h
      · split at h
        · cases h
          unfold bounced
          dsimp only
          split <;> rfl
        · exact produceUnmatched_stamps h
      · exact produceUnmatched_stamps h
    · exact produceUnmatched_stamps h

theorem receiveInterest_stamps {core : Core}
    (h : receiveInterest L cfg env n face p core = .ok m) :
    stamps m.contents = stamps n.contents := by
  obtain ⟨v, hv, hm⟩ := bind_eq_ok.1 h
  have hsame : stamps v.node.contents = stamps ({ n with effects := [] } : Node).contents :=
    ccnlriotProducer_stamps hv
  cases hm
  split
  · exact hsame
  · exact hsame

theorem step_stamps {e : Event} (hcompiles : cfg.Compiles) (h : step L cfg s e = some t) :
    ∀ x ∈ stamps t.node.contents, x ∈ stamps s.node.contents ∨
      ∃ p ∈ s.arriving e, ¬ Acks L p ∧ x = p.stamp := by
  cases step_stepped h with
  | @packet a n q timer hn =>
    intro x hx
    cases a with
    | interest env face pkt core =>
      exact .inl (receiveInterest_stamps (toOption_eq_some.1 hn) ▸ hx)
    | content env face pkt core =>
      exact (receiveContent_stamps hcompiles (toOption_eq_some.1 hn) x hx).imp_right
        fun h => ⟨pkt, rfl, h⟩
    | loopback env face addr core =>
      cases hloop : s.loopback with
      | nil =>
        simp only [arrive, hloop] at hn
        cases hn
      | cons pkt rest =>
        simp only [arrive, hloop] at hn
        refine (receiveContent_stamps hcompiles (toOption_eq_some.1 hn) x hx).imp_right
          fun h => ⟨{ pkt with addr := addr }, ?_, h⟩
        simp [Sys.arriving, Sys.looped, hloop]
  | recv _ hrecv =>
    obtain ⟨pit, prevent, state, hnode, -⟩ := hrecv.node.1
    rw [hnode]
    exact fun _ => .inl
  | @fire timer => cases timer <;> exact fun _ => .inl
  | core | chunk | elapse => exact fun _ => .inl

section Issued

variable {id data : BitVec 32}

theorem text_setNum (p : Pkt) (k : Int) :
    ((p.setNum k).buf.drop p.content).take 9 = (p.buf.drop p.content).take 9 := by
  apply List.ext_getElem?
  intro i
  simp only [Pkt.setNum, store32, List.getElem?_take, List.getElem?_drop, List.getElem?_set,
    List.length_set]
  split
  · rw [if_neg (by omega), if_neg (by omega), if_neg (by omega), if_neg (by omega)]
  · rfl

theorem issued_stamp_iff : Issued id data p.stamp ↔ Issued id data p := by
  have htext := text_setNum p (-1)
  constructor <;> intro h
  · exact ⟨h.named, htext.symm.trans h.value, h.contlen⟩
  · exact ⟨h.named, htext.trans h.value, h.contlen⟩

theorem Issued.of_stamp (h : Issued id data p) (heq : q.stamp = p.stamp) : Issued id data q :=
  issued_stamp_iff.1 (heq ▸ issued_stamp_iff.2 h)

theorem Issued.pfxNamed (h : Issued id data p) : p.pfx.Named := by
  obtain ⟨a, b, hcomp, -⟩ := h.named
  rw [Prefix.Named, hcomp]
  exact Nat.le_refl 4

theorem newDataPfx_comp (s : Sys) (sensor data : BitVec 32) : ∃ a b : Bytes,
    (newDataPfx s sensor data).comp = [a, b, hex8 s.node.dowMyId, hex8 data] ∧ a ≠ [42] := by
  unfold newDataPfx
  dsimp only
  split
  · exact ⟨_, _, rfl, by decide⟩
  · split
    · exact ⟨_, _, rfl, by decide⟩
    · exact ⟨_, _, rfl, by decide⟩

theorem OwnPkt.issued (h : OwnPkt L s p) : ∃ data, Issued s.node.dowMyId data p := by
  obtain ⟨sensor, data, addr, rfl⟩ := h
  have hpayload := L.prependContent_payload (newDataPfx s sensor data)
    (hex8 data ++ [0] ++ le32 (BitVec.ofInt 32 (-1)))
  refine ⟨data, newDataPfx_comp s sensor data, ?_, rfl⟩
  have htake := congrArg (List.take 9) hpayload
  rw [List.take_take, Nat.min_eq_left (by simp [le32])] at htake
  exact htake.trans (List.take_left' (by simp))

end Issued

end RiotApps.Caching
