import AscendShmem.Lib.RoundRobin
import AscendShmem.NicAffinity.AffinityExact

/-!
# The choice of the NIC

`select_ip_round_robin` gives every NPU one of its NICs whose address can be resolved; one cursor
goes round the NICs, the NPUs come in the order of their ids. How a name is resolved is a parameter.
-/

namespace AscendShmem.NicAffinity

open Lib Lib.Exec TopoXml

/-- `aclshmemi_nic_ip_resolver_t::resolve` -/
abbrev Resolver := Bytes → Option Bytes

section Select

variable (info : AffinityInfo) (nicIps : List (Option Bytes))

/-- The NPU may use the NIC. -/
def usable (npu nic : ℕ) : Bool := (nicIps[nic]?.join).isSome && info.isAffined npu nic

/-- The address and the NIC given to each NPU, and the cursor. -/
structure Assigned where
  assignment : List (Option Bytes)
  assignmentNicIndex : List (Option ℕ)
  current : ℕ
deriving DecidableEq, Repr

/-- No NPU has an address yet. -/
def Assigned.init : Assigned :=
  ⟨List.replicate maxNpuCount none, List.replicate maxNpuCount none, 0⟩

/-- One turn of the loop over the NPUs. -/
def assignNpu (st : Assigned) (npuId : ℕ) : Assigned :=
  match RoundRobin.pick (usable info nicIps npuId) info.nicNames.length st.current with
  | none => st
  | some nicIndex =>
    { assignment := st.assignment.set npuId (nicIps[nicIndex]?.join)
      assignmentNicIndex := st.assignmentNicIndex.set npuId (some nicIndex)
      current := (nicIndex + 1) % info.nicNames.length }

/-- The assignments after the first `n` NPUs. -/
def assignedUpTo (n : ℕ) : Assigned :=
  (List.range n).foldl (assignNpu info nicIps) Assigned.init

end Select

/-- `select_ip_round_robin` -/
def selectIpRoundRobin (phyId : ℤ) (info : AffinityInfo) (resolve : Resolver) : Option Bytes :=
  if phyId < 0 ∨ maxNpuCount ≤ phyId then none
  else (assignedUpTo info (info.nicNames.map resolve) maxNpuCount).assignment[phyId.toNat]?.join

/-- `MAX_XML_FILE_SIZE`: 1 MiB. -/
def maxXmlFileSize : ℕ := 1024 * 1024

/-- `aclshmemi_xml_parser_t::parse_file` on the content of the file, if it can be opened. -/
def parseFile (path : String) : Option Bytes → Parse (List XmlTag)
  | none => reject ("cannot open XML file: " ++ path)
  | some xml =>
    if xml.length = 0 then reject ("XML file is empty or unreadable: " ++ path)
    else if maxXmlFileSize < xml.length then reject ("XML file exceeds size limit: " ++ path)
    else parse xml

/-- `aclshmemi_get_roce_ip_from_xml` -/
def getRoceIpFromXml (hal : Hal) (resolve : Resolver) (phyId : ℤ) (path : String)
    (file : Option Bytes) : Option Bytes :=
  if phyId < 0 ∨ maxNpuCount ≤ phyId then none
  else if hal.visible phyId.toNat then
    match parseFile path file with
    | .error _ => none
    | .ok tags =>
      match buildAffinityInfo hal tags with
      | .error _ => none
      | .ok info => selectIpRoundRobin phyId info resolve
  else none

/-! ## The cursor -/

section Cursor

variable (info : AffinityInfo) (nicIps : List (Option Bytes))

/-- The cursor in front of an NPU. -/
def cursor (npu : ℕ) : ℕ := (assignedUpTo info nicIps npu).current

/-- The NIC that an NPU gets. -/
def nicOf (npu : ℕ) : Option ℕ :=
  RoundRobin.pick (usable info nicIps npu) info.nicNames.length (cursor info nicIps npu)

theorem assignedUpTo_succ (n : ℕ) : assignedUpTo info nicIps (n + 1) =
    assignNpu info nicIps (assignedUpTo info nicIps n) n := by
  rw [assignedUpTo, List.range_succ, List.foldl_append]
  rfl

theorem assignNpu_of_none {st : Assigned} {npu : ℕ}
    (h : RoundRobin.pick (usable info nicIps npu) info.nicNames.length st.current = none) :
    assignNpu info nicIps st npu = st := by
  rw [assignNpu, h]

/-- An NPU with a usable NIC gets it, and the cursor goes past it. -/
theorem assignNpu_of_some {st : Assigned} {npu nic : ℕ}
    (h : RoundRobin.pick (usable info nicIps npu) info.nicNames.length st.current = some nic) :
    assignNpu info nicIps st npu =
      ⟨st.assignment.set npu (nicIps[nic]?.join), st.assignmentNicIndex.set npu (some nic),
        (nic + 1) % info.nicNames.length⟩ := by
  rw [assignNpu, h]

theorem cursor_succ (npu : ℕ) : cursor info nicIps (npu + 1) =
    RoundRobin.next (usable info nicIps npu) info.nicNames.length (cursor info nicIps npu) := by
  rw [cursor, assignedUpTo_succ, RoundRobin.next]
  cases hpick : RoundRobin.pick (usable info nicIps npu) info.nicNames.length
      (cursor info nicIps npu) with
  | none => rw [assignNpu_of_none info nicIps hpick, cursor]
  | some nic => rw [assignNpu_of_some info nicIps hpick]

/-- The cursor stays on a NIC. -/
theorem cursor_lt (hnics : info.nicNames ≠ []) (npu : ℕ) :
    cursor info nicIps npu < info.nicNames.length := by
  induction npu with
  | zero => exact List.length_pos_of_ne_nil hnics
  | succ npu ih =>
    rw [cursor_succ]
    exact RoundRobin.next_lt _ ih

/-- The entries that the loop has written. -/
theorem assignedUpTo_entries (n npu : ℕ) (hnpu : npu < maxNpuCount) :
    (assignedUpTo info nicIps n).assignmentNicIndex[npu]? =
        some (if npu < n then nicOf info nicIps npu else none) ∧
      (assignedUpTo info nicIps n).assignment[npu]? =
        some (if npu < n then (nicOf info nicIps npu).bind fun nic => nicIps[nic]?.join else none) := by
  induction n with
  | zero =>
    simp [assignedUpTo, Assigned.init, hnpu]
  | succ n ih =>
    have hlength := (List.getElem?_eq_some_iff.mp ih.1).1
    have hlength' := (List.getElem?_eq_some_iff.mp ih.2).1
    rw [assignedUpTo_succ]
    by_cases heq : n = npu
    · subst heq
      rw [if_pos (Nat.lt_succ_self n), if_pos (Nat.lt_succ_self n)]
      rw [if_neg (lt_irrefl n), if_neg (lt_irrefl n)] at ih
      cases hpick : nicOf info nicIps n with
      | none =>
        rw [assignNpu_of_none info nicIps hpick]
        exact ih
      | some nic =>
        rw [assignNpu_of_some info nicIps hpick]
        exact ⟨List.getElem?_set_self hlength, List.getElem?_set_self hlength'⟩
    · have hiff : npu < n + 1 ↔ npu < n := by omega
      simp only [hiff]
      cases hpick : nicOf info nicIps n with
      | none =>
        rw [assignNpu_of_none info nicIps hpick]
        exact ih
      | some nic =>
        rw [assignNpu_of_some info nicIps hpick]
        exact ⟨(List.getElem?_set_ne heq).trans ih.1, (List.getElem?_set_ne heq).trans ih.2⟩

/-- The address that an NPU gets is that of its NIC. -/
theorem selectIpRoundRobin_eq (phyId : ℤ) (info : AffinityInfo) (resolve : Resolver)
    (hstart : 0 ≤ phyId) (hend : phyId < maxNpuCount) :
    selectIpRoundRobin phyId info resolve =
      (nicOf info (info.nicNames.map resolve) phyId.toNat).bind fun nic =>
        (info.nicNames.map resolve)[nic]?.join := by
  have hnpu : phyId.toNat < maxNpuCount := by omega
  rw [selectIpRoundRobin, if_neg (by omega),
    (assignedUpTo_entries info _ maxNpuCount phyId.toNat hnpu).2, if_pos hnpu, Option.join_some]

end Cursor

/-! ## From the text to the address -/

/-- The tags that the parser returns describe one tree. -/
theorem treeTags_of_parse {xml : Bytes} {tags : List XmlTag} (h : parse xml = .ok tags) :
    TreeTags tags := by
  rw [parse] at h
  split at h
  case isTrue => cases h
  case isFalse =>
    obtain ⟨st, hloop, hst⟩ := bind_eq_ok.mp h
    obtain ⟨spine, hreading⟩ :=
      (parseLoop_safe xml _ (by omega) ⟨_, reading_start xml⟩).of_ok hloop
    split at hst
    case h_1 =>
      obtain ⟨tag, _, hreject⟩ := bind_eq_ok.mp hst
      cases hreject
    case h_2 hopen =>
      split at hst
      case isTrue => cases hst
      case isFalse hone =>
        push Not at hone
        rw [← Except.ok.inj hst]
        exact hreading.treeTags hopen hone.1

/-- An accepted topology is acceptable and its affinity is built. -/
theorem buildAffinityInfo_of_ok {hal : Hal} {tags : List XmlTag} {info : AffinityInfo}
    (htree : TreeTags tags) (h : buildAffinityInfo hal tags = .ok info) :
    Acceptable hal tags ∧ IsAffinity hal tags info :=
  (buildAffinityInfo_exact htree hal).of_ok h

/-- The builder accepts every acceptable topology. -/
theorem accepts_of_acceptable {hal : Hal} {tags : List XmlTag} (htree : TreeTags tags)
    (hacc : Acceptable hal tags) : ∃ info, buildAffinityInfo hal tags = .ok info := by
  have hends : Ends (buildAffinityInfo hal tags) (fun _ => True) (fun _ => False) False :=
    (buildAffinityInfo_exact htree hal).mono (fun _ _ => trivial) (fun _ hnot => hnot hacc) id
  obtain ⟨info, hinfo, _⟩ := hends.exists_ok
  exact ⟨info, hinfo⟩

theorem IsAffinity.nicNames_ne_nil {hal : Hal} {tags : List XmlTag} {info : AffinityInfo}
    (h : IsAffinity hal tags info) (hacc : Acceptable hal tags) : info.nicNames ≠ [] := by
  obtain ⟨name, hnic⟩ := hacc.someNic
  exact List.ne_nil_of_mem ((h.nicNames name).mpr hnic)

/-- The NPU and the NIC are in one outermost group, and the name of the NIC has an address. -/
def Serves (hal : Hal) (tags : List XmlTag) (resolve : Resolver) (npu : ℕ) (ip : Bytes) : Prop :=
  ∃ r name, OutermostGroup tags r ∧ HasNpu hal tags r npu ∧ HasNic tags r name ∧
    resolve name = some ip

/-- The address of a position. -/
theorem nicIps_eq_some_iff {info : AffinityInfo} {resolve : Resolver} {nic : ℕ} {ip : Bytes} :
    (info.nicNames.map resolve)[nic]?.join = some ip ↔
      ∃ name, info.nicNames[nic]? = some name ∧ resolve name = some ip := by
  rw [List.getElem?_map]
  cases info.nicNames[nic]? <;> simp

/-- A NIC that an NPU may use serves it. -/
theorem IsAffinity.usable_iff {hal : Hal} {tags : List XmlTag} {info : AffinityInfo}
    (h : IsAffinity hal tags info) (resolve : Resolver) (npu nic : ℕ) :
    usable info (info.nicNames.map resolve) npu nic = true ↔ ∃ r name,
      info.nicNames[nic]? = some name ∧ OutermostGroup tags r ∧ HasNpu hal tags r npu ∧
        HasNic tags r name ∧ (resolve name).isSome = true := by
  rw [usable, Bool.and_eq_true, Option.isSome_iff_exists]
  constructor
  · intro ⟨⟨ip, hip⟩, haffined⟩
    obtain ⟨name, hname, hresolve⟩ := nicIps_eq_some_iff.mp hip
    obtain ⟨r, hout, hnpu, hnic⟩ := (h.affined npu nic name hname).mp haffined
    exact ⟨r, name, hname, hout, hnpu, hnic, by rw [hresolve]; rfl⟩
  · intro ⟨r, name, hname, hout, hnpu, hnic, hresolve⟩
    obtain ⟨ip, hip⟩ := Option.isSome_iff_exists.mp hresolve
    exact ⟨⟨ip, nicIps_eq_some_iff.mpr ⟨name, hname, hip⟩⟩,
      (h.affined npu nic name hname).mpr ⟨r, hout, hnpu, hnic⟩⟩

/-- The address selected is that of a NIC in a group with the NPU. -/
theorem select_serves {hal : Hal} {tags : List XmlTag} {info : AffinityInfo} (resolve : Resolver)
    {phyId : ℤ} (hacc : Acceptable hal tags) (h : IsAffinity hal tags info) (hstart : 0 ≤ phyId)
    (hend : phyId < maxNpuCount) :
    (∀ ip, selectIpRoundRobin phyId info resolve = some ip →
      Serves hal tags resolve phyId.toNat ip) ∧
    ((selectIpRoundRobin phyId info resolve).isSome = true ↔
      ∃ ip, Serves hal tags resolve phyId.toNat ip) := by
  have hcursor := cursor_lt info (info.nicNames.map resolve) (h.nicNames_ne_nil hacc) phyId.toNat
  rw [selectIpRoundRobin_eq phyId info resolve hstart hend]
  have hserves : ∀ ip, (nicOf info (info.nicNames.map resolve) phyId.toNat).bind (fun nic =>
      (info.nicNames.map resolve)[nic]?.join) = some ip →
      Serves hal tags resolve phyId.toNat ip := by
    intro ip hip
    obtain ⟨nic, hnic, hip⟩ := Option.bind_eq_some_iff.mp hip
    obtain ⟨r, name, hname, hout, hnpu, hhas, _⟩ :=
      (h.usable_iff resolve _ nic).mp (RoundRobin.pick_lt _ hnic).2
    obtain ⟨name', hname', hresolve⟩ := nicIps_eq_some_iff.mp hip
    rw [Option.some.inj (hname'.symm.trans hname)] at hresolve
    exact ⟨r, name, hout, hnpu, hhas, hresolve⟩
  refine ⟨hserves, fun hsome => ?_, fun ⟨ip, r, name, hout, hnpu, hhas, hresolve⟩ => ?_⟩
  · obtain ⟨ip, hip⟩ := Option.isSome_iff_exists.mp hsome
    exact ⟨ip, hserves ip hip⟩
  · obtain ⟨nic, hlt, hget⟩ := List.mem_iff_getElem.mp ((h.nicNames name).mpr ⟨r, hout, hhas⟩)
    have husable := (h.usable_iff resolve phyId.toNat nic).mpr
      ⟨r, name, List.getElem?_eq_some_iff.mpr ⟨hlt, hget⟩, hout, hnpu, hhas, by rw [hresolve]; rfl⟩
    cases hpick : nicOf info (info.nicNames.map resolve) phyId.toNat with
    | none =>
      rw [(RoundRobin.pick_eq_none_iff _ hcursor).mp hpick nic hlt] at husable
      cases husable
    | some chosen =>
      have hchosen := (RoundRobin.pick_lt _ hpick).2
      rw [usable, Bool.and_eq_true] at hchosen
      exact hchosen.1

/-- No address comes back where the conditions do not hold. -/
theorem no_address {P : Bytes → Prop} {Q : Prop} (h : ¬ Q) :
    (∀ ip, (none : Option Bytes) = some ip → P ip) ∧
      ((none : Option Bytes).isSome = true ↔ Q) :=
  ⟨fun _ hip => (Option.some_ne_none _ hip.symm).elim, iff_of_false Bool.false_ne_true h⟩

/-- An address comes back iff the NPU is visible, the file is an acceptable topology, and some NIC
with an address is in a group with the NPU; and it is then the address of such a NIC. -/
theorem roce_ip_exact (hal : Hal) (resolve : Resolver) (phyId : ℤ) (path : String)
    (file : Option Bytes) :
    (∀ ip, getRoceIpFromXml hal resolve phyId path file = some ip →
      ∃ tags, parseFile path file = .ok tags ∧ Serves hal tags resolve phyId.toNat ip) ∧
    ((getRoceIpFromXml hal resolve phyId path file).isSome = true ↔
      0 ≤ phyId ∧ phyId < maxNpuCount ∧ hal.visible phyId.toNat = true ∧
      ∃ tags, parseFile path file = .ok tags ∧ Acceptable hal tags ∧
        ∃ ip, Serves hal tags resolve phyId.toNat ip) := by
  rw [getRoceIpFromXml]
  split
  case isTrue hrange =>
    -- an NPU number out of range
    refine no_address ?_
    intro ⟨hstart, hend, _⟩
    omega
  case isFalse hrange =>
    rw [not_or, not_lt, not_le] at hrange
    split
    case isFalse hhidden =>
      -- an NPU the driver does not see
      refine no_address ?_
      exact fun hyes => hhidden hyes.2.2.1
    case isTrue hvisible =>
      split
      case h_1 stop hstop =>
        -- a file that does not parse
        refine no_address ?_
        intro ⟨_, _, _, tags, hparse, _⟩
        rw [hstop] at hparse
        cases hparse
      case h_2 tags hparse =>
        have htree : TreeTags tags := by
          unfold parseFile at hparse
          split at hparse
          · cases hparse
          · split at hparse
            · cases hparse
            · split at hparse
              · cases hparse
              · exact treeTags_of_parse hparse
        -- the file has been read, so the tags of the statement are these
        have htags : ∀ tags', parseFile path file = .ok tags' ↔ tags' = tags := by
          intro tags'
          rw [hparse, Except.ok.injEq, eq_comm]
        have hexact := buildAffinityInfo_exact htree hal
        split
        case h_1 stop hstop =>
          -- a topology that is refused
          refine no_address ?_
          intro ⟨_, _, _, tags', hparse', hacc, _⟩
          rw [(htags tags').mp hparse'] at hacc
          obtain ⟨info, hinfo⟩ := accepts_of_acceptable htree hacc
          rw [hstop] at hinfo
          cases hinfo
        case h_2 info hinfo =>
          obtain ⟨hacc, haffinity⟩ := hexact.of_ok hinfo
          obtain ⟨hserves, hiff⟩ := select_serves resolve hacc haffinity hrange.1 hrange.2
          refine ⟨fun ip hip => ⟨tags, hparse, hserves ip hip⟩, hiff.trans ?_⟩
          constructor
          · exact fun hip => ⟨hrange.1, hrange.2, hvisible, tags, hparse, hacc, hip⟩
          · intro ⟨_, _, _, tags', hparse', _, hip⟩
            rwa [(htags tags').mp hparse'] at hip

/-! ## The spread over the NICs of a group -/

section Spread

variable (info : AffinityInfo) (resolve : Resolver)

/-- The position of the NIC that the loop assigns to an NPU. -/
def assignedNic (npu : ℕ) : Option ℕ :=
  (assignedUpTo info (info.nicNames.map resolve) maxNpuCount).assignmentNicIndex[npu]?.join

/-- How many of the `count` NPUs from `first` on get the NIC at a position. -/
def load (first count nic : ℕ) : ℕ :=
  ((List.range' first count).filter fun npu => assignedNic info resolve npu = some nic).length

theorem assignedNic_eq {npu : ℕ} (hnpu : npu < maxNpuCount) :
    assignedNic info resolve npu = nicOf info (info.nicNames.map resolve) npu := by
  rw [assignedNic, (assignedUpTo_entries info _ maxNpuCount npu hnpu).1, if_pos hnpu,
    Option.join_some]

/-- The load of a NIC after one more NPU. -/
theorem load_succ (first count nic : ℕ) : load info resolve first (count + 1) nic =
    load info resolve first count nic +
      if assignedNic info resolve (first + count) = some nic then 1 else 0 := by
  rw [load, load, List.range'_1_concat, List.filter_append, List.length_append]
  refine congrArg (_ + ·) ?_
  by_cases heq : assignedNic info resolve (first + count) = some nic
  · simp [heq]
  · simp [heq]

/-- Over NPUs of which each may use the places of `p`, or none, the turns are a rotation. -/
theorem rotation_of_uniform (hnics : info.nicNames ≠ []) {p : ℕ → Bool} {first count : ℕ}
    (hend : first + count ≤ maxNpuCount) (huniform : ∀ npu, first ≤ npu → npu < first + count →
      (∀ nic < info.nicNames.length,
        usable info (info.nicNames.map resolve) npu nic = p nic) ∨
      ∀ nic < info.nicNames.length, usable info (info.nicNames.map resolve) npu nic = false) :
    ∃ turns, RoundRobin.Rotation p info.nicNames.length
      (cursor info (info.nicNames.map resolve) first) turns
      (cursor info (info.nicNames.map resolve) (first + count)) (load info resolve first count) := by
  have hcursor := cursor_lt info (info.nicNames.map resolve) hnics
  induction count with
  | zero => exact ⟨0, RoundRobin.Rotation.begin p (hcursor first)⟩
  | succ count ih =>
    obtain ⟨turns, hrotation⟩ := ih (by omega) fun npu hge hlt => huniform npu hge (by omega)
    have hassigned : assignedNic info resolve (first + count) = _ :=
      assignedNic_eq info resolve (by omega)
    rw [← Nat.add_assoc, cursor_succ, RoundRobin.next]
    cases hpick : nicOf info (info.nicNames.map resolve) (first + count) with
    | none =>
      have hload : load info resolve first (count + 1) = load info resolve first count := by
        funext nic
        rw [load_succ, hassigned, hpick, if_neg (Option.some_ne_none nic).symm, Nat.add_zero]
      rw [nicOf] at hpick
      rw [hpick, hload]
      exact ⟨turns, hrotation⟩
    | some chosen =>
      have hload : load info resolve first (count + 1) = fun nic =>
          load info resolve first count nic + if nic = chosen then 1 else 0 := by
        funext nic
        rw [load_succ, hassigned, hpick]
        exact congrArg (_ + ·) (if_congr (by rw [Option.some.injEq, eq_comm]) rfl rfl)
      rw [nicOf] at hpick
      obtain ⟨hlt, husable⟩ := RoundRobin.pick_lt _ hpick
      -- an NPU with a NIC has the NICs of `p`
      have hsame := (huniform (first + count) (by omega) (by omega)).resolve_right
        fun hnone => by rw [hnone chosen hlt] at husable; cases husable
      rw [RoundRobin.pick_congr _ (hcursor _) hsame] at hpick
      rw [RoundRobin.pick_congr _ (hcursor _) hsame, hpick, hload]
      exact ⟨turns + 1, hrotation.turn p hpick⟩

end Spread

/-- Among NPUs with successive ids that have NICs with an address in one outermost group only, the
loads of the NICs of this group that have an address differ by at most one. -/
theorem loads_balanced {xml : Bytes} {tags : List XmlTag} {hal : Hal} {info : AffinityInfo}
    (hparse : parse xml = .ok tags) (hbuild : buildAffinityInfo hal tags = .ok info)
    (resolve : Resolver) {r first count : ℕ} (hout : OutermostGroup tags r)
    (hend : first + count ≤ maxNpuCount)
    (honly : ∀ npu, first ≤ npu → npu < first + count → ∀ r' name, OutermostGroup tags r' →
      HasNpu hal tags r' npu → HasNic tags r' name → (resolve name).isSome = true → r' = r)
    {nic nic' : ℕ} {name name' : Bytes} (hname : info.nicNames[nic]? = some name)
    (hname' : info.nicNames[nic']? = some name') (hhas : HasNic tags r name)
    (hhas' : HasNic tags r name') (hresolve : (resolve name).isSome = true)
    (hresolve' : (resolve name').isSome = true) :
    load info resolve first count nic ≤ load info resolve first count nic' + 1 := by
  classical
  obtain ⟨hacc, haffinity⟩ := buildAffinityInfo_of_ok (treeTags_of_parse hparse) hbuild
  -- the NICs of the group that have an address
  let p : ℕ → Bool := fun nic => decide (∃ name, info.nicNames[nic]? = some name ∧
    HasNic tags r name ∧ (resolve name).isSome = true)
  have huniform : ∀ npu, first ≤ npu → npu < first + count →
      (∀ nic < info.nicNames.length,
        usable info (info.nicNames.map resolve) npu nic = p nic) ∨
      ∀ nic < info.nicNames.length, usable info (info.nicNames.map resolve) npu nic = false := by
    intro npu hge hlt
    by_cases hnpu : HasNpu hal tags r npu
    · refine Or.inl fun nic _ => ?_
      rw [Bool.eq_iff_iff, haffinity.usable_iff, decide_eq_true_eq]
      constructor
      · intro ⟨r', name, hname, hout', hnpu', hnic', hresolve⟩
        rw [honly npu hge hlt r' name hout' hnpu' hnic' hresolve] at hnic'
        exact ⟨name, hname, hnic', hresolve⟩
      · intro ⟨name, hname, hnic', hresolve⟩
        exact ⟨r, name, hname, hout, hnpu, hnic', hresolve⟩
    · refine Or.inr fun nic _ => ?_
      rw [← Bool.not_eq_true, haffinity.usable_iff]
      intro ⟨r', name, hname, hout', hnpu', hnic', hresolve⟩
      rw [honly npu hge hlt r' name hout' hnpu' hnic' hresolve] at hnpu'
      exact hnpu hnpu'
  obtain ⟨turns, hrotation⟩ := rotation_of_uniform info resolve
    (haffinity.nicNames_ne_nil hacc) hend huniform
  have hlt := (List.getElem?_eq_some_iff.mp hname).1
  have hlt' := (List.getElem?_eq_some_iff.mp hname').1
  exact hrotation.balanced p hlt (decide_eq_true ⟨name, hname, hhas, hresolve⟩) hlt'
    (decide_eq_true ⟨name', hname', hhas', hresolve'⟩)

/-! ## A host with three NPUs and two NICs -/

-- the sample topologies are evaluated, which goes deeper than the default
set_option maxRecDepth 2000

/-- Two NICs and three NPUs in one ub group. -/
def sampleTopology : Bytes := ascii
  "<system><ub><net name=\"a\"/><net name=\"b\"/><npu chipphyid=\"0\"/><npu chipphyid=\"1\"/><npu chipphyid=\"2\"/></ub></system>".toList

/-- A driver that sees every NPU and knows no bus address. -/
def sampleHal : Hal := ⟨fun phyId => some phyId.toUInt32, fun _ => none⟩

/-- The tags of the sample topology. -/
def sampleTags : List XmlTag :=
  [⟨systemName, [], -1, 0, false⟩, ⟨ubName, [], 0, 1, false⟩,
    ⟨netName, [⟨nameAttr, ascii ['a']⟩], 1, 2, true⟩,
    ⟨netName, [⟨nameAttr, ascii ['b']⟩], 1, 2, true⟩,
    ⟨npuName, [⟨chipphyidAttr, ascii ['0']⟩], 1, 2, true⟩,
    ⟨npuName, [⟨chipphyidAttr, ascii ['1']⟩], 1, 2, true⟩,
    ⟨npuName, [⟨chipphyidAttr, ascii ['2']⟩], 1, 2, true⟩]

/-- Its one group. -/
def sampleGroup : AffinityGroup := ⟨[0, 1, 2], [0, 1]⟩

/-- Its two NICs. -/
def sampleNicNames : List Bytes := [ascii ['a'], ascii ['b']]

/-- Its affinity. -/
def sampleInfo : AffinityInfo :=
  ⟨sampleNicNames, [sampleGroup], affinedTable sampleNicNames [sampleGroup]⟩

theorem parse_sampleTopology : parse sampleTopology = .ok sampleTags := by decide

theorem visitRoot_sampleTags :
    (List.range sampleTags.length).foldlM (visitRoot sampleTags) [] = .ok [1] := by decide

theorem visitGroup_sampleTags :
    visitGroup sampleHal sampleTags [] ([], []) 1 = .ok (sampleNicNames, [sampleGroup]) := by
  decide

/-- The affinity is built from the tags. -/
theorem buildAffinityInfo_sampleTags : buildAffinityInfo sampleHal sampleTags = .ok sampleInfo := by
  have hpcie : hasPcieGroup sampleTags [1] = false := by decide
  rw [buildAffinityInfo, if_pos (by decide), visitRoot_sampleTags, ok_bind, buildGroups,
    if_neg (by decide), if_neg (by simp [hpcie])]
  simp only [hpcie, Bool.false_eq_true, if_false, List.foldlM_cons, List.foldlM_nil,
    visitGroup_sampleTags, ok_bind]
  rfl

/-- The second element is the only group. -/
theorem outermostGroup_sampleTags (r : ℕ) : OutermostGroup sampleTags r ↔ r = 1 := by
  have htree := treeTags_of_parse parse_sampleTopology
  have hgroups : ∀ i < sampleTags.length, sampleTags[i]?.any isGroupTag = true → i = 1 := by
    decide
  constructor
  · intro hout
    obtain ⟨tag, htag, hgroup, _⟩ := hout.root
    exact hgroups r (List.getElem?_eq_some_iff.mp htag).1 (by rw [htag]; exact hgroup)
  · intro heq
    rw [heq]
    have hroot : sampleTags[1]?.any (fun tag => isGroupTag tag && !tag.selfClosing) = true := by
      decide
    obtain ⟨tag, htag, hboth⟩ := (Option.any_eq_true _ _).mp hroot
    rw [Bool.and_eq_true, Bool.not_eq_true'] at hboth
    refine ⟨⟨tag, htag, hboth⟩, fun a up habove hup => ?_⟩
    obtain ⟨p, hp, hbelow⟩ := Relation.TransGen.head'_iff.mp habove
    have hlt := ParentOf.lt htree hp
    have hle := Below.le htree hbelow
    by_contra hgroup
    have hone := hgroups a (List.getElem?_eq_some_iff.mp hup).1 (by
      rw [hup]
      exact Bool.eq_true_of_not_eq_false hgroup)
    omega

/-- The NICs are found where they stand. -/
theorem hasNic_sampleTags {i : ℕ} {name : Bytes} (h : sampleTags[i]?.any (fun tag =>
    tag.name = netName ∧ findAttr tag nameAttr = some name ∧ tag.parentIndex = 1) = true) :
    HasNic sampleTags 1 name := by
  obtain ⟨tag, htag, hall⟩ := (Option.any_eq_true _ _).mp h
  rw [decide_eq_true_eq] at hall
  exact ⟨i, tag, htag, .single ⟨tag, htag, hall.2.2⟩, hall.1, hall.2.1⟩

/-- Two of the three NPUs get the first NIC, one gets the second. -/
theorem loads_balanced_sample :
    load sampleInfo some 0 3 0 ≤ load sampleInfo some 0 3 1 + 1 :=
  loads_balanced parse_sampleTopology buildAffinityInfo_sampleTags some
    ((outermostGroup_sampleTags 1).mpr rfl) (by decide)
    (fun _ _ _ r' _ hout _ _ _ => (outermostGroup_sampleTags r').mp hout)
    rfl rfl (hasNic_sampleTags (i := 2) (by decide))
    (hasNic_sampleTags (i := 3) (by decide)) rfl rfl

/-- For every text that the parser accepts, the builder returns the affinity of the topology, it
accepts the acceptable topologies and no others, and it reads nothing outside the tags. -/
theorem affinity_exact {xml : Bytes} {tags : List XmlTag} (hparse : parse xml = .ok tags)
    (hal : Hal) :
    (∀ info, buildAffinityInfo hal tags = .ok info → IsAffinity hal tags info) ∧
    ((∃ info, buildAffinityInfo hal tags = .ok info) ↔ Acceptable hal tags) ∧
    ∀ stop, buildAffinityInfo hal tags = .error stop → ∃ status message,
      stop = .fail status message := by
  have htree := treeTags_of_parse hparse
  have hexact := buildAffinityInfo_exact htree hal
  refine ⟨fun info hinfo => (hexact.of_ok hinfo).2,
    ⟨fun ⟨info, hinfo⟩ => (hexact.of_ok hinfo).1, accepts_of_acceptable htree⟩,
    fun stop hstop => ?_⟩
  rw [hstop] at hexact
  match stop with
  | .fail status message => exact ⟨status, message, rfl⟩
  | .outOfRange => exact hexact.elim
  | .outOfFuel => exact hexact.elim

/-- A PCI group and a UB group with one NPU each. -/
def pciTopology : Bytes := ascii
  "<system><pci busid=\"0000:C1:00.0\"><net name=\"a\"/></pci><ub><npu chipphyid=\"1\"/><net name=\"b\"/></ub></system>".toList

/-- The driver knows two NPUs, and the PCI address of one. -/
def pciHal : Hal where
  userIdFromPhyId phyId := if phyId < 2 then some phyId.toUInt32 else none
  devicePcieInfo phyId := if phyId = 0 then some ⟨0, 0xc1, 0, 0⟩ else none

/-- The tags of this topology. -/
def pciTags : List XmlTag :=
  [⟨systemName, [], -1, 0, false⟩,
    ⟨pciName, [⟨busidAttr, ascii "0000:C1:00.0".toList⟩], 0, 1, false⟩,
    ⟨netName, [⟨nameAttr, ascii ['a']⟩], 1, 2, true⟩, ⟨ubName, [], 0, 1, false⟩,
    ⟨npuName, [⟨chipphyidAttr, ascii ['1']⟩], 3, 2, true⟩,
    ⟨netName, [⟨nameAttr, ascii ['b']⟩], 3, 2, true⟩]

/-- Its affinity. -/
def pciInfo : AffinityInfo :=
  ⟨sampleNicNames, [⟨[0], [0]⟩, ⟨[1], [1]⟩], affinedTable sampleNicNames [⟨[0], [0]⟩, ⟨[1], [1]⟩]⟩

theorem buildBdfTable_pciHal :
    buildBdfTable pciHal = [(ascii "0000:c1:00.0".toList, 0)] := by decide

/-- The affinity is built from its tags. -/
theorem buildAffinityInfo_pciTags : buildAffinityInfo pciHal pciTags = .ok pciInfo := by
  have hroots : (List.range pciTags.length).foldlM (visitRoot pciTags) [] = .ok [1, 3] := by
    decide
  have hpci : hasPcieGroup pciTags [1, 3] = true := by decide
  have hfirst : visitGroup pciHal pciTags [(ascii "0000:c1:00.0".toList, 0)] ([], []) 1
      = .ok ([ascii ['a']], [⟨[0], [0]⟩]) := by decide
  have hsecond : visitGroup pciHal pciTags [(ascii "0000:c1:00.0".toList, 0)]
      ([ascii ['a']], [⟨[0], [0]⟩]) 3 = .ok (sampleNicNames, [⟨[0], [0]⟩, ⟨[1], [1]⟩]) := by
    decide
  rw [buildAffinityInfo, if_pos (by decide), hroots, ok_bind, buildGroups, if_neg (by decide),
    if_neg (by simp [buildBdfTable_pciHal])]
  simp only [hpci, if_true, buildBdfTable_pciHal, List.foldlM_cons, List.foldlM_nil, hfirst,
    hsecond, ok_bind]
  rfl

/-- The PCI group and the UB group. -/
theorem affinity_exact_sample :
    buildAffinityInfo pciHal pciTags = .ok pciInfo ∧ IsAffinity pciHal pciTags pciInfo ∧
      Acceptable pciHal pciTags := by
  have hparse : parse pciTopology = .ok pciTags := by decide
  have h := affinity_exact hparse pciHal
  exact ⟨buildAffinityInfo_pciTags, h.1 _ buildAffinityInfo_pciTags,
    h.2.1.mp ⟨_, buildAffinityInfo_pciTags⟩⟩

end AscendShmem.NicAffinity
