import AscendShmem.PullV2.DispatchKernel
import AscendShmem.PullV2.LayoutTheorems
import AscendShmem.PullV2.SlotRoundTrip

/-!
# Uniform sources

A source is uniform when its tokens all select the same set of destinations, each destination with
one assignment (`ParsedSource.SameOnce`). The encoder and the layout compiler both find this out by
marking flags, token by token: the encoder goes on to the end, the compiler stops at the first token
that breaks it.
-/

namespace AscendShmem.PullV2

open Lib Lib.Exec

/-- The destinations of a token, one for each assignment. -/
def RoutedToken.destinations (v : RoutedToken) : List ℕ :=
  v.assignments.map fun a => a.destinationRank.toNat

/-- Every token selects the same destinations, and each of them once. -/
def ParsedSource.SameOnce (source : ParsedSource) : Prop :=
  ∀ v ∈ source.routed, v.destinations.Nodup ∧
    ∀ w ∈ source.routed, ∀ d, d ∈ v.destinations ↔ d ∈ w.destinations

/-- The destinations of the tokens of a source, in the order of the tokens. -/
def ParsedSource.destinationLists (source : ParsedSource) : List (List ℕ) :=
  source.routed.map RoutedToken.destinations

section Flags

variable {source : ParsedSource} {n k d : ℕ} {l : List ℕ}

theorem length_destinationLists : source.destinationLists.length = source.tokens.length := by
  rw [ParsedSource.destinationLists, ParsedSource.routed, List.length_map, List.length_map]

/-- One more token has one more list. -/
theorem destinationLists_take_succ {record : TokenRecord} (h : source.tokens[k]? = some record) :
    source.destinationLists.take (k + 1)
      = source.destinationLists.take k ++ [(source.routedToken record).destinations] := by
  apply (take_succ_of_getElem? _).1
  rw [ParsedSource.destinationLists, ParsedSource.routed, List.getElem?_map, List.getElem?_map, h]
  rfl

theorem ParsedSource.sameOnce_iff_lists : source.SameOnce ↔ ∀ l ∈ source.destinationLists,
    l.Nodup ∧ ∀ m ∈ source.destinationLists, ∀ d, d ∈ l ↔ d ∈ m := by
  unfold ParsedSource.destinationLists
  simp only [List.forall_mem_map]
  rfl

/-- Flags can tell uniform sources from others as soon as there is one for every destination. -/
theorem ParsedSource.sameOnce_iff (h : ∀ l ∈ source.destinationLists, ∀ d ∈ l, d < n) :
    source.SameOnce ↔ SameFlags n source.destinationLists := by
  rw [sameFlags_iff h, ParsedSource.sameOnce_iff_lists]

theorem nodup_append_singleton : (l ++ [d]).Nodup ↔ l.Nodup ∧ d ∉ l := by
  rw [← List.concat_eq_append, List.nodup_concat, and_comm]

theorem headD_append {α : Type} {l m : List α} {a : α} (h : l ≠ []) :
    (l ++ m).headD a = l.headD a := by
  cases l with
  | nil => exact absurd rfl h
  | cons b l => rfl

/-- A flag that can be read says whether its key has been marked. -/
theorem readFlag_ends {σ : Type} {E : σ → Prop} (n : ℕ) (l : List ℕ) (d : ℕ) :
    Ends (Exec.read (flagsOf n l) d : Exec σ Bool) (fun hit => d < n ∧ hit = decide (d ∈ l)) E
      True := by
  apply Ends.read
  · intro hit hget
    have hlt := (List.getElem?_eq_some_iff.mp hget).1
    rw [length_flagsOf] at hlt
    rw [getElem?_flagsOf hlt] at hget
    exact ⟨hlt, (Option.some.inj hget).symm⟩
  · intro _
    trivial

/-- A flag is set if it is there. -/
theorem markFlag_ends {σ : Type} {E : σ → Prop} (n : ℕ) (l : List ℕ) (d : ℕ) :
    Ends (Exec.write (flagsOf n l) d true : Exec σ (List Bool))
      (fun flags => flags = flagsOf n (l ++ [d])) E True := by
  apply Ends.write
  · intro _
    exact set_flagsOf n d l
  · intro _
    trivial

end Flags

/-! ## The encoder -/

section Encoder

variable {input : SourceInput} {k : ℕ}

/-- The destinations of token `k` of an input. -/
def destinationsAt (input : SourceInput) (k : ℕ) : List ℕ :=
  ((builtSource input).routedToken (builtToken input k)).destinations

/-- The encoder's walk over one token marks its destinations and drops the hint at the first that
comes twice. -/
theorem buildDestinations_ends (h : OffsetsSorted input) (hk : k < input.tokenIds.length)
    (uniform : Bool) :
    Ends ((List.range' (offsetAt input k).toNat (builtToken input k).assignmentCount.toNat).foldlM
        (buildAssignment input (builtToken input k).assignmentCount)
        ⟨List.replicate (builtToken input k).assignmentCount.toNat false,
          List.replicate input.session.workerCount.toNat false, uniform⟩)
      (fun st => st.destinations = flagsOf input.session.workerCount.toNat (destinationsAt input k) ∧
        (st.uniformDestinations = true ↔ uniform = true ∧ (destinationsAt input k).Nodup))
      (fun _ => True) True := by
  have hcount := h.count hk
  have hmono := h.mono k (k + 1) (by omega) hk
  have hlast := h.mono (k + 1) _ hk (le_refl _)
  rw [h.last] at hlast
  set n := (builtToken input k).assignmentCount.toNat
  set l := (builtSource input).assignmentsOf (builtToken input k) with hl
  have hl' : l = (input.assignments.drop (offsetAt input k).toNat).take n := hl
  have hlen : l.length = n := by
    rw [hl', List.length_take, List.length_drop]
    omega
  -- the destinations of the first `j` assignments
  set front := fun j => (l.take j).map fun a => a.destinationRank.toNat with hfront
  have hall : destinationsAt input k = front n := by
    rw [hfront]
    simp only [← hlen, List.take_length]
    rfl
  rw [hall, List.range'_eq_map_range, List.foldlM_map]
  apply Ends.forRange (fun j (st : BuildTokenState) =>
    st.destinations = flagsOf input.session.workerCount.toNat (front j) ∧
    (st.uniformDestinations = true ↔ uniform = true ∧ (front j).Nodup))
  · exact ⟨(flagsOf_nil _).symm, (and_iff_left List.nodup_nil).symm⟩
  · rintro j hj ⟨ordinals, destinations, uniform'⟩ ⟨rfl, huniform⟩
    replace huniform : uniform' = true ↔ uniform = true ∧ (front j).Nodup := huniform
    have hget : l[j]? = some l[j] := List.getElem?_eq_getElem (by omega)
    have hnext : front (j + 1) = front j ++ [l[j].destinationRank.toNat] := by
      rw [hfront]
      simp only [(take_succ_of_getElem? hget).1, List.map_append, List.map_singleton]
    have hread : input.assignments[(offsetAt input k).toNat + j]? = some l[j] := by
      rw [← hget, hl', List.getElem?_take_of_lt (by omega), List.getElem?_drop]
    unfold buildAssignment
    rw [read_of hread, ok_bind, hnext]
    apply Ends.bind (Ends.require_or trivial)
    intro _ _
    apply Ends.bind (Ends.read_or_fault _ _)
    intro _ _
    apply Ends.bind (Ends.require_or trivial)
    intro _ _
    apply Ends.bind (Ends.write_or_fault _ _ _)
    intro _ _
    apply (readFlag_ends _ (front j) _).bind
    rintro _ ⟨_, rfl⟩
    apply (markFlag_ends _ (front j) _).bind
    rintro _ rfl
    apply ends_ok.mpr
    refine ⟨rfl, ?_⟩
    show (uniform' && !decide _) = true ↔ _
    rw [Bool.and_eq_true, huniform, nodup_append_singleton, and_assoc, Bool.not_eq_true',
      decide_eq_false_iff_not]

/-- The encoder's walk over the tokens: the hint stays as long as the tokens mark the same flags. -/
theorem buildUniform_ends (h : OffsetsSorted input) :
    Ends ((List.range input.tokenIds.length).foldlM (buildToken input)
        { referenceDestinations := List.replicate input.session.workerCount.toNat false })
      (fun st => st.uniformDestinations = true ↔
        SameFlags input.session.workerCount.toNat (builtSource input).destinationLists)
      (fun _ => True) True := by
  set n := input.session.workerCount.toNat
  set L := (builtSource input).destinationLists with hL
  have hlen : L.length = input.tokenIds.length := by
    rw [hL, length_destinationLists]
    exact length_builtTokens input
  have hloop : Ends ((List.range input.tokenIds.length).foldlM (buildToken input)
      { referenceDestinations := List.replicate n false })
      (fun st => (st.uniformDestinations = true ↔ SameFlags n (L.take input.tokenIds.length)) ∧
        st.referenceDestinations = flagsOf n ((L.take input.tokenIds.length).headD []))
      (fun _ => True) True := by
    apply Ends.forRange (fun k (st : BuildState) =>
      (st.uniformDestinations = true ↔ SameFlags n (L.take k)) ∧
      st.referenceDestinations = flagsOf n ((L.take k).headD []))
    · exact ⟨iff_of_true rfl (sameFlags_nil n), (flagsOf_nil n).symm⟩
    · rintro k hk ⟨tokens, uniform, reference⟩ ⟨huniform, rfl⟩
      replace huniform : uniform = true ↔ SameFlags n (L.take k) := huniform
      have hnext : L.take (k + 1) = L.take k ++ [destinationsAt input k] :=
        destinationLists_take_succ (getElem?_builtTokens hk)
      have hoff := h.getElem?
      unfold buildToken
      rw [read_of (hoff k (by omega)), ok_bind, read_of (hoff (k + 1) hk), ok_bind]
      apply Ends.bind (buildDestinations_ends h hk _)
      rintro ⟨ordinals, destinations, walked⟩ ⟨rfl, hwalked⟩
      replace hwalked : walked = true ↔ uniform = true ∧ (destinationsAt input k).Nodup := hwalked
      apply Ends.bind (Ends.read_or_fault _ _)
      intro _ _
      split
      · -- the first token is the reference
        rename_i hzero
        subst hzero
        apply ends_ok.mpr
        refine ⟨?_, by rw [hnext]; rfl⟩
        show walked = true ↔ _
        rw [hwalked, huniform, hnext, List.take_zero, List.nil_append, sameFlags_singleton,
          and_iff_right (sameFlags_nil n)]
      · rename_i hne
        have hfront : L.take k ≠ [] := by
          intro hnil
          have hzero := congrArg List.length hnil
          rw [List.length_take, List.length_nil] at hzero
          omega
        apply ends_ok.mpr
        rw [hnext, sameFlags_concat hfront, headD_append hfront, ← huniform]
        refine ⟨?_, rfl⟩
        show (walked && decide _) = true ↔ _
        rw [Bool.and_eq_true, hwalked, decide_eq_true_eq, and_assoc]
  apply hloop.imp
  rintro st ⟨hst, _⟩
  rwa [← hlen, List.take_length] at hst

/-- The flags of a slot are those it is built from. -/
theorem encodeSlot_flags {built header : SlotHeader} {tokens : List TokenRecord}
    {assignments : List AssignmentRecord} {payload slot : List UInt8} {ready : Ready}
    (h : encodeSlot built tokens assignments payload = .ok (slot, header, ready)) :
    header.flags = built.flags := by
  unfold encodeSlot at h
  rw [bind_eq_ok] at h
  rcases h with ⟨body, _, h⟩
  rw [bind_eq_ok] at h
  rcases h with ⟨digest, _, h⟩
  rw [bind_eq_ok] at h
  rcases h with ⟨slot', _, h⟩
  cases h
  rfl

/-- The encoder sets the uniform hint exactly on the sources that are uniform. -/
theorem buildSlot_hint {slot : List UInt8} {header : SlotHeader} {ready : Ready}
    (h : buildSlot input = .ok (slot, header, ready)) :
    header.uniformHint = true ↔ (builtSource input).SameOnce := by
  have haccept := ((buildSlot_ends input).of_ok h).1
  have hinside : ∀ l ∈ (builtSource input).destinationLists, ∀ d ∈ l,
      d < input.session.workerCount.toNat := by
    intro l hl d hd
    rcases List.mem_map.mp hl with ⟨v, hv, rfl⟩
    rcases List.mem_map.mp hv with ⟨record, hrecord, rfl⟩
    rcases List.mem_map.mp hd with ⟨a, ha, rfl⟩
    rcases List.getElem?_of_mem hrecord with ⟨k, hk⟩
    exact UInt32.lt_iff_toNat_lt.mp ((haccept.csr.token k record hk).assignments.1 a ha).1
  rw [ParsedSource.sameOnce_iff hinside]
  -- the run that returned the header
  unfold buildSlot at h
  rw [bind_eq_ok] at h
  rcases h with ⟨_, _, h⟩
  rw [bind_eq_ok] at h
  rcases h with ⟨hiddenElements, _, h⟩
  rw [bind_eq_ok] at h
  rcases h with ⟨hiddenBytes, _, h⟩
  rw [bind_eq_ok] at h
  rcases h with ⟨_, _, h⟩
  rw [bind_eq_ok] at h
  rcases h with ⟨st, hst, h⟩
  rw [bind_eq_ok] at h
  rcases h with ⟨⟨tokensOffset, assignmentsOffset, hiddenOffset, packetBytes⟩, _, h⟩
  have huniform := (buildUniform_ends (offsetsSorted_of_inputValid haccept.valid)).of_ok hst
  have hflags : header.flags
      = if st.uniformDestinations then kSlotFlagUniformDestinations else 0 := encodeSlot_flags h
  rw [← huniform, SlotHeader.uniformHint, hflags]
  cases st.uniformDestinations with
  | true => decide
  | false => decide

end Encoder

/-! ## The layout compiler -/

section Compiler

variable {session : SessionConfig} {source : ParsedSource} {n k : ℕ} {record : TokenRecord}

/-- The flags of the compiler after the destinations `l` of a token: there are none any more once a
destination has come twice, and till then it has had a flag for every destination. -/
def Marked (n : ℕ) (l : List ℕ) (flags : Option (List Bool)) : Prop :=
  if l.Nodup then flags = some (flagsOf n l) ∧ ∀ d ∈ l, d < n else flags = none

/-- The reference of the compiler after tokens with the destinations `L`. -/
def Compared (n : ℕ) (L : List (List ℕ)) (reference : Option (List Bool)) : Prop :=
  if SameFlags n L then reference = some (flagsOf n (L.headD [])) ∧ ∀ l ∈ L, ∀ d ∈ l, d < n
  else reference = none

/-- The flags of a token are those of its destinations. -/
theorem markDestinations_ends (htoken : TokenValid session source k record)
    (hrecord : source.tokens[k]? = some record) (hsize : source.assignments.length < 2 ^ 32) :
    Ends ((List.range record.assignmentCount.toNat).foldlM (markDestination source record)
        (some (List.replicate n false)))
      (Marked n (source.routedToken record).destinations) (fun _ => True) True := by
  set l := source.assignmentsOf record with hl
  have hlen : l.length = record.assignmentCount.toNat := htoken.length_assignmentsOf hrecord
  -- the destinations of the first `j` assignments
  set front := fun j => (l.take j).map fun a => a.destinationRank.toNat with hfront
  have hall : (source.routedToken record).destinations = front record.assignmentCount.toNat := by
    rw [hfront]
    simp only [← hlen, List.take_length]
    rfl
  rw [hall]
  apply Ends.forRange (fun j flags => Marked n (front j) flags)
  · show Marked n [] _
    unfold Marked
    rw [if_pos List.nodup_nil]
    exact ⟨congrArg some (flagsOf_nil n).symm, fun d hd => by cases hd⟩
  · intro j hj flags hflags
    have hget : l[j]? = some l[j] := List.getElem?_eq_getElem (by omega)
    have hnext : front (j + 1) = front j ++ [l[j].destinationRank.toNat] := by
      rw [hfront]
      simp only [(take_succ_of_getElem? hget).1, List.map_append, List.map_singleton]
    rw [hnext]
    unfold markDestination Marked at *
    simp only [nodup_append_singleton]
    by_cases hnodup : (front j).Nodup
    · rw [if_pos hnodup] at hflags
      rcases hflags with ⟨rfl, hinside⟩
      simp only []
      rw [read_of ((htoken.getElem?_assignments hrecord hsize hj).trans hget), ok_bind]
      apply (readFlag_ends _ (front j) _).bind
      rintro _ ⟨hlt, rfl⟩
      by_cases hmem : l[j].destinationRank.toNat ∈ front j
      · rw [decide_eq_true hmem, if_pos rfl]
        apply ends_ok.mpr
        rw [if_neg fun h => h.2 hmem]
      · rw [decide_eq_false hmem, if_neg Bool.false_ne_true]
        apply (markFlag_ends _ (front j) _).bind
        rintro _ rfl
        apply ends_ok.mpr
        rw [if_pos ⟨hnodup, hmem⟩]
        exact ⟨rfl, List.forall_mem_append.mpr ⟨hinside, List.forall_mem_singleton.mpr hlt⟩⟩
    · rw [if_neg hnodup] at hflags
      subst hflags
      apply ends_ok.mpr
      rw [if_neg fun h => hnodup h.1]

/-- One token more. -/
theorem uniformToken_compared {workers : UInt32} (htoken : TokenValid session source k record)
    (hrecord : source.tokens[k]? = some record) (hsize : source.assignments.length < 2 ^ 32)
    {reference : Option (List Bool)}
    (h : Compared workers.toNat (source.destinationLists.take k) reference) :
    Ends (uniformToken workers source reference k)
      (Compared workers.toNat (source.destinationLists.take (k + 1))) (fun _ => True) True := by
  have hk := (List.getElem?_eq_some_iff.mp hrecord).1
  have hlen : (source.destinationLists.take k).length = k := by
    rw [List.length_take, length_destinationLists]
    omega
  rw [destinationLists_take_succ hrecord]
  set n := workers.toNat
  set L := source.destinationLists.take k
  set l := (source.routedToken record).destinations
  unfold uniformToken
  unfold Compared at h ⊢
  by_cases hsame : SameFlags n L
  · rw [if_pos hsame] at h
    rcases h with ⟨rfl, hfrontIn⟩
    simp only []
    rw [read_of hrecord, ok_bind]
    apply (markDestinations_ends (n := n) htoken hrecord hsize).bind
    intro flags hflags
    unfold Marked at hflags
    by_cases hnodup : l.Nodup
    · rw [if_pos hnodup] at hflags
      rcases hflags with ⟨rfl, hin⟩
      have hall : ∀ m ∈ L ++ [l], ∀ d ∈ m, d < n :=
        List.forall_mem_append.mpr ⟨hfrontIn, List.forall_mem_singleton.mpr hin⟩
      simp only []
      by_cases hzero : k = 0
      · -- the first token is the reference
        have hnil : L = [] := List.length_eq_zero_iff.mp (hlen.trans hzero)
        rw [hnil, List.nil_append] at hall ⊢
        rw [if_pos hzero]
        apply ends_ok.mpr
        rw [if_pos (sameFlags_singleton.mpr hnodup)]
        exact ⟨rfl, hall⟩
      · have hfront : L ≠ [] := by
          intro hnil
          rw [hnil] at hlen
          exact hzero hlen.symm
        rw [if_neg hzero, headD_append hfront]
        by_cases hsets : flagsOf n l = flagsOf n (L.headD [])
        · rw [if_pos hsets]
          apply ends_ok.mpr
          rw [if_pos ((sameFlags_concat hfront).mpr ⟨hsame, hnodup, hsets⟩)]
          exact ⟨rfl, hall⟩
        · rw [if_neg hsets]
          apply ends_ok.mpr
          rw [if_neg fun h => hsets ((sameFlags_concat hfront).mp h).2.2]
    · rw [if_neg hnodup] at hflags
      subst hflags
      apply ends_ok.mpr
      rw [if_neg fun h => hnodup (h l (by simp)).1]
  · -- a token before has broken it
    rw [if_neg hsame] at h
    subst h
    apply ends_ok.mpr
    rw [if_neg fun h => hsame h.left]

/-- The compiler comes to the end of a source exactly when the source is uniform. -/
theorem uniformTokens_ends {workers : UInt32} (hvalid : SourceValid session source) :
    Ends ((List.range source.tokens.length).foldlM (uniformToken workers source)
        (some (List.replicate workers.toNat false)))
      (fun reference => reference.isSome = true ↔ source.SameOnce) (fun _ => True) True := by
  have hsize : source.assignments.length < 2 ^ 32 :=
    hvalid.assignmentCount ▸ source.header.assignmentCount.toNat_lt
  have hloop : Ends ((List.range source.tokens.length).foldlM (uniformToken workers source)
      (some (List.replicate workers.toNat false)))
      (Compared workers.toNat (source.destinationLists.take source.tokens.length))
      (fun _ => True) True := by
    apply Ends.forRange (fun k reference =>
      Compared workers.toNat (source.destinationLists.take k) reference)
    · unfold Compared
      rw [List.take_zero, if_pos (sameFlags_nil _)]
      exact ⟨congrArg some (flagsOf_nil _).symm, fun l hl => by cases hl⟩
    · intro k hk reference hreference
      have hrecord : source.tokens[k]? = some source.tokens[k] := List.getElem?_eq_getElem hk
      exact uniformToken_compared (hvalid.csr.token k _ hrecord) hrecord hsize hreference
  apply hloop.imp
  intro reference hreference
  unfold Compared at hreference
  rw [← length_destinationLists, List.take_length] at hreference
  by_cases hsame : SameFlags workers.toNat source.destinationLists
  · rw [if_pos hsame] at hreference
    rcases hreference with ⟨rfl, hinside⟩
    exact iff_of_true rfl ((ParsedSource.sameOnce_iff hinside).mpr hsame)
  · rw [if_neg hsame] at hreference
    subst hreference
    apply iff_of_false Bool.false_ne_true
    intro honce
    exact hsame (sameFlags_of_same (ParsedSource.sameOnce_iff_lists.mp honce))

end Compiler

end AscendShmem.PullV2
