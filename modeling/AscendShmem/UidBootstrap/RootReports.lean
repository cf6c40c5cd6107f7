import Mathlib

/-!
# What the root collects

The loop of `bootstrap_root` in `shmemi_bootstrap_uid.cpp`: one report after the other is read from
the connections that are accepted. The first report gives `nranks`; the loop is left when as many
reports are stored, or at the first report that does not fit. Addresses are distributed only when
it is left with `nranks` reports.
-/

namespace AscendShmem.UidBootstrap

/-- `sizeof(sockaddr_t)` -/
def sockAddrSize : ℕ := 32

/-- The bytes of a `sockaddr_t`. -/
abbrev SockAddr := Fin sockAddrSize → UInt8

/-- `zero_addr` -/
def zeroAddr : SockAddr := fun _ => 0

/-- What one connection to the root brings: `peer_version` and `bootstrap_ext_info`. -/
structure Report where
  peerVersion : ℤ
  rank : ℤ
  nranks : ℤ
  extAddrListen : SockAddr
  extAddressListenRoot : SockAddr
deriving DecidableEq

/-- Where the root is. -/
inductive RootPc where
  | collecting
  /-- the addresses of the ranks below `r` have been sent -/
  | distributing (r : ℕ)
  | stopped
deriving DecidableEq, Repr

/-- The state of the root. -/
structure RootState where
  nranks : ℤ
  /-- number of received nodes -/
  c : ℕ
  /-- the address arrays have been allocated -/
  allocated : Bool
  rankAddrs : ℕ → SockAddr
  rankAddrsRoot : ℕ → SockAddr
  pc : RootPc

/-- The root before the first report. -/
def RootState.init : RootState where
  nranks := 0
  c := 0
  allocated := false
  rankAddrs _ := zeroAddr
  rankAddrsRoot _ := zeroAddr
  pc := .collecting

/-- Behind the loop. -/
def RootState.leave (st : RootState) : RootState :=
  { st with pc := if (st.c : ℤ) = st.nranks ∧ st.allocated = true then .distributing 0 else .stopped }

/-- "Initialize the address array upon first reception" -/
def RootState.opened (st : RootState) (info : Report) : RootState :=
  if st.c = 0 then { st with
    nranks := info.nranks
    allocated := true
    rankAddrs := fun _ => zeroAddr
    rankAddrsRoot := fun _ => zeroAddr }
  else st

/-- The addresses of a report go to the arrays. -/
def RootState.store (st : RootState) (info : Report) : RootState :=
  { st with
    rankAddrsRoot := Function.update st.rankAddrsRoot info.rank.toNat info.extAddressListenRoot
    rankAddrs := Function.update st.rankAddrs info.rank.toNat info.extAddrListen
    c := st.c + 1 }

/-- One pass of the loop of `bootstrap_root`. -/
def rootRead (rootVersion : ℤ) (st : RootState) (info : Report) : RootState :=
  if info.peerVersion ≠ rootVersion then st.leave
  else if st.c = 0 ∧ info.nranks ≤ 0 then { st with nranks := info.nranks }.leave
  else
    let st := st.opened info
    if info.nranks ≠ st.nranks ∨ info.rank < 0 ∨ info.rank ≥ st.nranks then st.leave
    else if zeroAddr ≠ st.rankAddrsRoot info.rank.toNat then st.leave
    else
      let st := st.store info
      if (st.c : ℤ) ≥ st.nranks then st.leave else st

/-- The loop over the reports in the order in which their connections are accepted. -/
def rootRun (rootVersion : ℤ) (st : RootState) : List Report → RootState
  | [] => st
  | info :: rest =>
    match st.pc with
    | .collecting => rootRun rootVersion (rootRead rootVersion st info) rest
    | _ => st

/-! ## When the root distributes -/

/-- Reports of `n` ranks that agree on `n`, each rank at most once. -/
structure Agreeing (rootVersion n : ℤ) (reports : List Report) : Prop where
  fits : ∀ info ∈ reports, info.peerVersion = rootVersion ∧ info.nranks = n ∧ 0 ≤ info.rank ∧
    info.rank < n
  distinct : (reports.map Report.rank).Nodup

/-- The state after reports that have all been stored, of `n` that are awaited. -/
structure Stored (n : ℤ) (reports : List Report) (st : RootState) : Prop where
  c : st.c = reports.length
  pc : st.pc = if (reports.length : ℤ) = n then .distributing 0 else .collecting
  opened : reports = [] ∨ st.nranks = n ∧ st.allocated = true
  zero : ∀ r : ℕ, (∀ info ∈ reports, info.rank.toNat ≠ r) → st.rankAddrsRoot r = zeroAddr
  addr : ∀ info ∈ reports, st.rankAddrsRoot info.rank.toNat = info.extAddressListenRoot ∧
    st.rankAddrs info.rank.toNat = info.extAddrListen

section Reading

variable {rootVersion n : ℤ} {reports rest : List Report} {info : Report} {st : RootState}

/-- At the start nothing is stored. -/
theorem Stored.init (hn : 0 < n) : Stored n [] RootState.init where
  c := rfl
  pc := (if_neg (by rw [List.length_nil]; omega)).symm
  opened := Or.inl rfl
  zero _ _ := rfl
  addr _ h := absurd h List.not_mem_nil

/-- Reports that agree have different places in the arrays. -/
theorem Agreeing.toNat_ne (h : Agreeing rootVersion n (reports ++ [info])) :
    ∀ other ∈ reports, other.rank.toNat ≠ info.rank.toNat := by
  intro other hother heq
  have hother' := h.fits other (List.mem_append_left _ hother)
  have hinfo := h.fits info (List.mem_append_right _ (List.mem_singleton.mpr rfl))
  have hdistinct := h.distinct
  rw [List.map_append, List.nodup_append] at hdistinct
  apply hdistinct.2.2 other.rank (List.mem_map_of_mem hother) info.rank
    (List.mem_map_of_mem (List.mem_singleton.mpr rfl))
  omega

/-- The arrays are there once a report for `n` ranks has come. -/
theorem Stored.opened_eq (h : Stored n reports st) (hn : info.nranks = n) :
    (st.opened info).nranks = n ∧ (st.opened info).allocated = true ∧
      (st.opened info).pc = st.pc ∧ (st.opened info).c = st.c ∧
      (reports ≠ [] → st.opened info = st) := by
  unfold RootState.opened
  by_cases hzero : st.c = 0
  · rw [if_pos hzero]
    have hnil : reports = [] := List.length_eq_zero_iff.mp (h.c ▸ hzero)
    exact ⟨hn, rfl, rfl, rfl, fun hne => absurd hnil hne⟩
  · rw [if_neg hzero]
    rcases h.opened with hnil | ⟨hnranks, halloc⟩
    · have hc := h.c
      rw [hnil] at hc
      exact absurd hc hzero
    · exact ⟨hnranks, halloc, rfl, rfl, fun _ => rfl⟩

/-- A rank that has not reported has no address. -/
theorem Stored.opened_zero (h : Stored n reports st) {r : ℕ}
    (hr : ∀ other ∈ reports, other.rank.toNat ≠ r) :
    (st.opened info).rankAddrsRoot r = zeroAddr := by
  unfold RootState.opened
  split
  · rfl
  · exact h.zero r hr

/-- A rank that has reported has its own. -/
theorem Stored.opened_addr (h : Stored n reports st) (hn : info.nranks = n) {other : Report}
    (hother : other ∈ reports) :
    (st.opened info).rankAddrsRoot other.rank.toNat = other.extAddressListenRoot ∧
      (st.opened info).rankAddrs other.rank.toNat = other.extAddrListen := by
  rw [(h.opened_eq hn).2.2.2.2 (List.ne_nil_of_mem hother)]
  exact h.addr other hother

/-- A report that agrees with the ones before is stored. -/
theorem Stored.read (h : Stored n reports st) (hlt : (reports.length : ℤ) < n)
    (hagree : Agreeing rootVersion n (reports ++ [info])) :
    Stored n (reports ++ [info]) (rootRead rootVersion st info) := by
  obtain ⟨hversion, hn, hrank, hranklt⟩ :=
    hagree.fits info (List.mem_append_right _ (List.mem_singleton.mpr rfl))
  obtain ⟨hnranks, halloc, hpc, hc, _⟩ := h.opened_eq hn
  have hfresh : (st.opened info).rankAddrsRoot info.rank.toNat = zeroAddr :=
    h.opened_zero hagree.toNat_ne
  have hlen : (reports ++ [info]).length = reports.length + 1 := List.length_append
  have hcount : ((st.opened info).store info).c = reports.length + 1 := by
    show (st.opened info).c + 1 = _
    rw [hc, h.c]
  have hstored : ∀ r : ℕ, (∀ other ∈ reports ++ [info], other.rank.toNat ≠ r) →
      ((st.opened info).store info).rankAddrsRoot r = zeroAddr := by
    intro r hr
    show Function.update _ _ _ r = _
    rw [Function.update_of_ne
      (hr info (List.mem_append_right _ (List.mem_singleton.mpr rfl))).symm]
    exact h.opened_zero fun other hother => hr other (List.mem_append_left _ hother)
  have haddr : ∀ other ∈ reports ++ [info],
      ((st.opened info).store info).rankAddrsRoot other.rank.toNat = other.extAddressListenRoot ∧
        ((st.opened info).store info).rankAddrs other.rank.toNat = other.extAddrListen := by
    intro other hother
    show Function.update _ _ _ _ = _ ∧ Function.update _ _ _ _ = _
    rcases List.mem_append.mp hother with hother | hother
    · have hne := hagree.toNat_ne other hother
      rw [Function.update_of_ne hne, Function.update_of_ne hne]
      exact h.opened_addr hn hother
    · rw [List.mem_singleton.mp hother, Function.update_self, Function.update_self]
      exact ⟨rfl, rfl⟩
  unfold rootRead
  rw [if_neg (not_not.mpr hversion), if_neg (by omega)]
  simp only []
  rw [if_neg (by omega), if_neg (not_not.mpr hfresh.symm)]
  have hnranks' : ((st.opened info).store info).nranks = n := hnranks
  by_cases hfull : (reports.length : ℤ) + 1 = n
  · -- the last report
    rw [if_pos (by rw [hcount, hnranks']; omega)]
    refine ⟨by rw [hlen]; exact hcount, ?_, Or.inr ⟨hnranks', halloc⟩, hstored, haddr⟩
    have hall : ((reports.length + 1 : ℕ) : ℤ) = n := by omega
    rw [hlen, if_pos hall]
    exact if_pos ⟨by rw [hcount, hnranks']; exact hall, halloc⟩
  · rw [if_neg (by rw [hcount, hnranks']; omega)]
    refine ⟨by rw [hlen]; exact hcount, ?_, Or.inr ⟨hnranks', halloc⟩, hstored, haddr⟩
    rw [hlen, if_neg (by omega)]
    show (st.opened info).pc = _
    rw [hpc, h.pc, if_neg (by omega)]

/-- A report that does not agree with the ones before stops the root. -/
theorem Stored.reject (h : Stored n reports st) (hlt : (reports.length : ℤ) < n)
    (hreports : reports ≠ []) (hagree : Agreeing rootVersion n reports)
    (haddr : ∀ other ∈ reports, other.extAddressListenRoot ≠ zeroAddr)
    (hnot : ¬ Agreeing rootVersion n (reports ++ [info])) :
    (rootRead rootVersion st info).pc = .stopped := by
  have hpos : 0 < reports.length := List.length_pos_of_ne_nil hreports
  obtain ⟨hnranks, halloc⟩ := h.opened.resolve_left hreports
  have hopened : st.opened info = st := if_neg (by rw [h.c]; omega)
  have hleave : st.leave.pc = .stopped := by
    unfold RootState.leave
    rw [if_neg]
    rw [h.c, hnranks]
    omega
  unfold rootRead
  by_cases hversion : info.peerVersion = rootVersion
  · rw [if_neg (not_not.mpr hversion), if_neg (by rw [h.c]; omega)]
    simp only []
    rw [hopened]
    by_cases hrange : info.nranks ≠ st.nranks ∨ info.rank < 0 ∨ info.rank ≥ st.nranks
    · rw [if_pos hrange]
      exact hleave
    · rw [if_neg hrange]
      -- what is left is a duplicate
      have hdup : info.rank ∈ reports.map Report.rank := by
        by_contra hfresh
        apply hnot
        refine ⟨?_, ?_⟩
        · intro other hother
          rcases List.mem_append.mp hother with hother | hother
          · exact hagree.fits other hother
          · rw [List.mem_singleton.mp hother]
            exact ⟨hversion, by omega, by omega, by omega⟩
        · rw [List.map_append, List.nodup_append]
          refine ⟨hagree.distinct, List.nodup_singleton _, ?_⟩
          intro a ha b hb heq
          rw [List.mem_singleton.mp hb] at heq
          exact hfresh (heq ▸ ha)
      obtain ⟨other, hother, hrank⟩ := List.mem_map.mp hdup
      have hslot := (h.addr other hother).1
      rw [hrank] at hslot
      rw [if_pos (by rw [hslot]; exact (haddr other hother).symm)]
      exact hleave
  · rw [if_pos hversion]
    exact hleave

/-- The first report that does not agree with itself stops the root. -/
theorem init_reject (hnot : ∀ n : ℤ, 0 < n → ¬ Agreeing rootVersion n [info]) :
    (rootRead rootVersion RootState.init info).pc = .stopped := by
  unfold rootRead
  by_cases hversion : info.peerVersion = rootVersion
  · rw [if_neg (not_not.mpr hversion)]
    by_cases hpos : info.nranks ≤ 0
    · rw [if_pos ⟨rfl, hpos⟩]
      unfold RootState.leave
      rw [if_neg (fun hleft => Bool.false_ne_true hleft.2)]
    · rw [if_neg (fun hleft => hpos hleft.2)]
      have hrange : info.nranks ≠ (RootState.init.opened info).nranks ∨ info.rank < 0 ∨
          info.rank ≥ (RootState.init.opened info).nranks := by
        by_contra hin
        have hnranks : (RootState.init.opened info).nranks = info.nranks := rfl
        rw [hnranks] at hin
        apply hnot info.nranks (by omega)
        refine ⟨?_, List.nodup_singleton _⟩
        intro other hother
        rw [List.mem_singleton.mp hother]
        exact ⟨hversion, rfl, by omega, by omega⟩
      simp only []
      rw [if_pos hrange]
      unfold RootState.leave
      rw [if_neg]
      intro hleft
      have hzero : (0 : ℤ) = info.nranks := hleft.1
      omega
  · rw [if_pos hversion]
    unfold RootState.leave
    rw [if_neg (fun hleft => Bool.false_ne_true hleft.2)]

/-- A root that does not collect reads nothing. -/
theorem rootRun_of_not_collecting (h : st.pc ≠ .collecting) (reports : List Report) :
    rootRun rootVersion st reports = st := by
  cases reports with
  | nil => rfl
  | cons info rest =>
    unfold rootRun
    split
    · next hpc => exact absurd hpc h
    · rfl

/-- A root that collects reads the first report. -/
theorem rootRun_cons (h : st.pc = .collecting) :
    rootRun rootVersion st (info :: rest)
      = rootRun rootVersion (rootRead rootVersion st info) rest := by
  show (match st.pc with
    | .collecting => rootRun rootVersion (rootRead rootVersion st info) rest
    | _ => st) = _
  rw [h]

/-- Some of the reports read: the root distributes when the next ones agree with them. -/
theorem Stored.run (h : Stored n reports st) (hlt : (reports.length : ℤ) < n)
    (hreports : reports ≠ []) (hagree : Agreeing rootVersion n reports)
    (haddr : ∀ other ∈ reports ++ rest, other.extAddressListenRoot ≠ zeroAddr) :
    (rootRun rootVersion st rest).pc = .distributing 0 ↔
      n ≤ ((reports ++ rest).length : ℤ) ∧
        Agreeing rootVersion n ((reports ++ rest).take n.toNat) := by
  induction rest generalizing reports st with
  | nil =>
    rw [List.append_nil]
    show st.pc = _ ↔ _
    rw [h.pc, if_neg (by omega)]
    exact ⟨fun heq => (by cases heq), fun hright => by omega⟩
  | cons info rest ih =>
    have hassoc : reports ++ info :: rest = (reports ++ [info]) ++ rest := by
      rw [List.append_assoc]
      rfl
    have hlen : (reports ++ [info]).length = reports.length + 1 := List.length_append
    have hpc : st.pc = .collecting := by
      rw [h.pc, if_neg (by omega)]
    rw [hassoc] at haddr ⊢
    rw [rootRun_cons hpc]
    have hleft : ∀ other ∈ reports, other.extAddressListenRoot ≠ zeroAddr :=
      fun other hother => haddr other (List.mem_append_left _ (List.mem_append_left _ hother))
    by_cases hnext : Agreeing rootVersion n (reports ++ [info])
    · have hread := h.read hlt hnext
      by_cases hfull : ((reports ++ [info]).length : ℤ) = n
      · have hdist : (rootRead rootVersion st info).pc = .distributing 0 := by
          rw [hread.pc, if_pos hfull]
        rw [rootRun_of_not_collecting (by rw [hdist]; exact fun heq => by cases heq), hdist]
        have htake : ((reports ++ [info]) ++ rest).take n.toNat = reports ++ [info] :=
          List.take_left' (by omega)
        rw [htake, List.length_append]
        exact ⟨fun _ => ⟨by omega, hnext⟩, fun _ => rfl⟩
      · exact ih hread (by rw [hlen] at hfull ⊢; omega) (List.append_ne_nil_of_right_ne_nil _
          (List.cons_ne_nil _ _)) hnext haddr
    · have hstop := h.reject hlt hreports hagree hleft hnext
      rw [rootRun_of_not_collecting (by rw [hstop]; exact fun heq => by cases heq), hstop]
      refine ⟨fun heq => (by cases heq), ?_⟩
      -- the report that does not agree is among the first ones
      rintro ⟨_, hall⟩
      exfalso
      apply hnext
      have hinit : reports ++ [info] <+: ((reports ++ [info]) ++ rest).take n.toNat := by
        rw [List.prefix_take_iff]
        exact ⟨List.prefix_append _ _, by omega⟩
      refine ⟨fun other hother => hall.fits other (hinit.subset hother), ?_⟩
      exact hall.distinct.sublist (hinit.sublist.map _)

/-- The root distributes exactly when the first reports it reads are one from each rank of as many
ranks as they all say. -/
theorem rootRun_distributes_iff (reports : List Report)
    (haddr : ∀ other ∈ reports, other.extAddressListenRoot ≠ zeroAddr) :
    (rootRun rootVersion RootState.init reports).pc = .distributing 0 ↔
      ∃ n : ℤ, 0 < n ∧ n ≤ (reports.length : ℤ) ∧
        Agreeing rootVersion n (reports.take n.toNat) := by
  cases reports with
  | nil =>
    constructor
    · intro heq
      cases heq
    · rintro ⟨n, hpos, hle, _⟩
      rw [List.length_nil] at hle
      omega
  | cons info rest =>
    rw [rootRun_cons rfl]
    by_cases hfirst : ∃ n : ℤ, 0 < n ∧ Agreeing rootVersion n [info]
    · obtain ⟨n, hpos, hfirst⟩ := hfirst
      have hread := (Stored.init hpos).read (by rw [List.length_nil]; omega) hfirst
      have hnranks := (hfirst.fits info List.mem_cons_self).2.1
      -- the first report fixes the number
      have hfixed : ∀ m : ℤ, 0 < m → Agreeing rootVersion m ((info :: rest).take m.toNat) →
          m = n := by
        intro m hm hagree
        rw [show m.toNat = (m.toNat - 1) + 1 by omega, List.take_succ_cons] at hagree
        rw [← (hagree.fits info List.mem_cons_self).2.1, hnranks]
      have hiff : (rootRun rootVersion (rootRead rootVersion RootState.init info) rest).pc
            = .distributing 0 ↔
          n ≤ ((info :: rest).length : ℤ) ∧
            Agreeing rootVersion n ((info :: rest).take n.toNat) := by
        by_cases hone : n = 1
        · have hdist : (rootRead rootVersion RootState.init info).pc = .distributing 0 := by
            rw [hread.pc, if_pos (by rw [hone]; rfl)]
          rw [rootRun_of_not_collecting (by rw [hdist]; exact fun heq => by cases heq), hdist, hone]
          rw [hone] at hfirst
          refine ⟨fun _ => ⟨?_, hfirst⟩, fun _ => rfl⟩
          rw [List.length_cons]
          omega
        · exact hread.run (by show (1 : ℤ) < n; omega) (List.cons_ne_nil _ _) hfirst haddr
      rw [hiff]
      constructor
      · rintro ⟨hle, hagree⟩
        exact ⟨n, hpos, hle, hagree⟩
      · rintro ⟨m, hm, hle, hagree⟩
        rw [hfixed m hm hagree] at hle hagree
        exact ⟨hle, hagree⟩
    · have hstop : (rootRead rootVersion RootState.init info).pc = .stopped :=
        init_reject fun n hn hagree => hfirst ⟨n, hn, hagree⟩
      rw [rootRun_of_not_collecting (by rw [hstop]; exact fun heq => by cases heq), hstop]
      refine ⟨fun heq => (by cases heq), ?_⟩
      rintro ⟨m, hm, _, hagree⟩
      exfalso
      apply hfirst
      rw [show m.toNat = (m.toNat - 1) + 1 by omega, List.take_succ_cons] at hagree
      refine ⟨m, hm, ⟨?_, List.nodup_singleton _⟩⟩
      intro other hother
      rw [List.mem_singleton.mp hother]
      exact hagree.fits info List.mem_cons_self

end Reading

end AscendShmem.UidBootstrap
