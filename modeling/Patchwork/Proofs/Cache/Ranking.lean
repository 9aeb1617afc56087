import Mathlib.Algebra.BigOperators.Group.List.Basic
import Mathlib.Data.List.Nodup
import Patchwork.Proofs.Cache.Lru

/-!
# The residents of a ledger in order

A ledger keeps its residents in no order and stamps them.  Read in the order of their stamps they
are the queue: a later stamp than any so far is the back, an earlier one the front.

## Main definitions

* `Ledger.Ranks` — the residents in the order in which they leave.
* `Ledger.Mirrors` — that order is a queue.

## Main statements

* `Ledger.Ranks.order_eq` — sorting by the stamps gives that order.
* `Ledger.Mirrors.hit`, `Ledger.Mirrors.demote`, `Ledger.Mirrors.forget`, `Ledger.Mirrors.enroll` —
  the operations on a ledger are those on its queue.
-/

namespace Patchwork.Cache

/-- What a queue and a ledger both record of a value. -/
def Resident.key (r : Resident) : Handle × Nat := (r.handle, r.size)

/-- What a queue and a ledger both record of a value. -/
def Item.key {V : Type} (item : Item V) : Handle × Nat := (item.handle, item.size)

namespace Ledger

theorem perm_place (r : Resident) (queue : List Resident) : (place r queue).Perm (r :: queue) := by
  induction queue with
  | nil => exact .refl _
  | cons s queue ih =>
    unfold place
    split
    · exact .refl _
    · exact (ih.cons s).trans (.swap r s queue)

theorem pairwise_place {r : Resident} {queue : List Resident}
    (h : queue.Pairwise fun a b => a.stamp ≤ b.stamp) :
    (place r queue).Pairwise fun a b => a.stamp ≤ b.stamp := by
  induction queue with
  | nil => exact List.pairwise_singleton _ r
  | cons s queue ih =>
    obtain ⟨hs, hqueue⟩ := List.pairwise_cons.mp h
    unfold place
    split
    · next hle =>
      refine List.pairwise_cons.mpr ⟨?_, h⟩
      intro a ha
      rcases List.mem_cons.mp ha with rfl | ha
      · exact hle
      · exact Int.le_trans hle (hs a ha)
    · next hlt =>
      refine List.pairwise_cons.mpr ⟨?_, ih hqueue⟩
      intro a ha
      rcases List.mem_cons.mp ((perm_place r queue).subset ha) with rfl | ha
      · exact Int.le_of_lt (Int.not_le.mp hlt)
      · exact hs a ha

theorem perm_order (l : Ledger) : l.order.Perm l.residents := by
  unfold order
  induction l.residents with
  | nil => exact .refl _
  | cons r rest ih => exact (perm_place r _).trans (ih.cons r)

theorem pairwise_order (l : Ledger) : l.order.Pairwise fun a b => a.stamp ≤ b.stamp := by
  unfold order
  induction l.residents with
  | nil => exact .nil
  | cons r rest ih => exact pairwise_place ih

/-- The residents in the order in which they leave. -/
structure Ranks (l : Ledger) (rs : List Resident) : Prop where
  /-- They are the residents. -/
  residents : rs.Perm l.residents
  /-- The earlier stamp leaves first. -/
  stamps : rs.Pairwise fun a b => a.stamp < b.stamp
  /-- The earliest stamp is not after the latest. -/
  spread : l.lowest ≤ l.newest
  /-- No stamp is outside those given out. -/
  bounds : ∀ r ∈ rs, l.lowest ≤ r.stamp ∧ r.stamp ≤ l.newest
  /-- No handle is there twice. -/
  handles : (rs.map (·.handle)).Nodup
  /-- The running total is right. -/
  bytes : l.residentBytes = (rs.map (·.size)).sum

namespace Ranks

variable {l : Ledger} {rs : List Resident} {r : Resident}

theorem empty (budget : Nat) : (Ledger.empty budget).Ranks [] :=
  ⟨.refl _, .nil, Int.le_refl _, by simp, by simp, rfl⟩

theorem find?_eq (H : l.Ranks rs) (h : Handle) : l.find? h = rs.find? (·.handle = h) :=
  (find?_eq_of_perm H.handles H.residents h).symm

/-- Sorting the residents by their stamps gives the order. -/
theorem order_eq (H : l.Ranks rs) : l.order = rs := by
  have hperm : l.order.Perm rs := (perm_order l).trans H.residents.symm
  have hsorted : l.order.Pairwise fun a b => a.stamp ≤ b.stamp := pairwise_order l
  have hstamps : (rs.map (·.stamp)).Nodup :=
    List.pairwise_map.mpr (H.stamps.imp Int.ne_of_lt)
  refine hperm.eq_of_pairwise ?_ hsorted (H.stamps.imp Int.le_of_lt)
  intro a b ha hb hab hba
  exact List.inj_on_of_nodup_map hstamps (hperm.subset ha) hb (Int.le_antisymm hab hba)

/-- A resident with another stamp, and the others. -/
theorem perm_restamp (H : l.Ranks rs) (hr : r ∈ rs) (stamp : Int) :
    ({ r with stamp } :: rs.filter (·.handle ≠ r.handle)).Perm
      (l.restamp r.handle stamp).residents := by
  have hperm := ((perm_cons_filter H.handles hr).symm.trans H.residents).map fun a =>
    if a.handle = r.handle then { a with stamp } else a
  have hothers : (rs.filter (·.handle ≠ r.handle)).map (fun a =>
      if a.handle = r.handle then { a with stamp } else a) = rs.filter (·.handle ≠ r.handle) := by
    refine (List.map_congr_left ?_).trans (List.map_id _)
    intro a ha
    exact if_neg (by simpa using (List.mem_filter.mp ha).2)
  rw [List.map_cons, if_pos rfl, hothers] at hperm
  exact hperm

/-- The others. -/
theorem forget (H : l.Ranks rs) (h : Handle) :
    (l.forget h).Ranks (rs.filter (·.handle ≠ h)) := by
  cases hfind : l.find? h with
  | none =>
    have hall : rs.filter (·.handle ≠ h) = rs := by
      rw [H.find?_eq] at hfind
      exact List.filter_eq_self.mpr fun a ha => by
        simpa using List.find?_eq_none.mp hfind a ha
    rw [Ledger.forget, hfind, hall]
    exact H
  | some r =>
    rw [H.find?_eq, find?_eq_some_iff H.handles] at hfind
    obtain ⟨hr, rfl⟩ := hfind
    have hbytes := ((perm_cons_filter H.handles hr).map (·.size)).sum_eq
    rw [List.map_cons, List.sum_cons, ← H.bytes] at hbytes
    rw [Ledger.forget, H.find?_eq, (find?_eq_some_iff H.handles).mpr ⟨hr, rfl⟩]
    exact ⟨H.residents.filter _, H.stamps.filter _, H.spread,
      fun a ha => H.bounds a (List.mem_filter.mp ha).1,
      H.handles.sublist (List.filter_sublist.map _), by simp only [hbytes]; omega⟩

/-- Other stamps in another order. -/
theorem rearrange (H : l.Ranks rs) {l' : Ledger} {rs' : List Resident}
    (hresidents : rs'.Perm l'.residents) (hbytes : l'.residentBytes = l.residentBytes)
    (hkeys : (rs'.map Resident.key).Perm (rs.map Resident.key))
    (hstamps : rs'.Pairwise fun a b => a.stamp < b.stamp) (hspread : l'.lowest ≤ l'.newest)
    (hbounds : ∀ a ∈ rs', l'.lowest ≤ a.stamp ∧ a.stamp ≤ l'.newest) : l'.Ranks rs' := by
  have hhandles : (rs'.map (·.handle)).Perm (rs.map (·.handle)) := by
    simpa only [List.map_map] using! hkeys.map Prod.fst
  have hsizes : (rs'.map (·.size)).Perm (rs.map (·.size)) := by
    simpa only [List.map_map] using! hkeys.map Prod.snd
  exact ⟨hresidents, hstamps, hspread, hbounds, hhandles.nodup_iff.mpr H.handles,
    by rw [hbytes, H.bytes, hsizes.sum_eq]⟩

/-- A resident that is used goes to the back. -/
theorem hit (H : l.Ranks rs) (hr : r ∈ rs) :
    (l.hit r.handle).Ranks
      (rs.filter (·.handle ≠ r.handle) ++ [{ r with stamp := l.newest + 1 }]) := by
  have hothers : ∀ a ∈ rs.filter (·.handle ≠ r.handle), l.lowest ≤ a.stamp ∧ a.stamp ≤ l.newest :=
    fun a ha => H.bounds a (List.mem_filter.mp ha).1
  have hspread := H.spread
  refine H.rearrange (List.perm_append_comm.trans (H.perm_restamp hr _)) rfl ?_ ?_ ?_ ?_
  · rw [List.map_append]
    exact List.perm_append_comm.trans ((perm_cons_filter H.handles hr).symm.map Resident.key)
  · refine List.pairwise_append.mpr ⟨H.stamps.filter _, List.pairwise_singleton _ _, ?_⟩
    intro a ha b hb
    rw [List.mem_singleton.mp hb]
    exact Int.lt_add_one_of_le (hothers a ha).2
  · simp only [Ledger.hit, Ledger.touch, Ledger.restamp]
    omega
  · simp only [Ledger.hit, Ledger.touch, Ledger.restamp]
    intro a ha
    rcases List.mem_append.mp ha with ha | ha
    · have := hothers a ha
      omega
    · rw [List.mem_singleton.mp ha]
      dsimp only
      omega

/-- A resident that is demoted goes to the front. -/
theorem demote (H : l.Ranks rs) (hr : r ∈ rs) :
    (l.demote r.handle).Ranks
      ({ r with stamp := l.lowest - 1 } :: rs.filter (·.handle ≠ r.handle)) := by
  have hothers : ∀ a ∈ rs.filter (·.handle ≠ r.handle), l.lowest ≤ a.stamp ∧ a.stamp ≤ l.newest :=
    fun a ha => H.bounds a (List.mem_filter.mp ha).1
  have hspread := H.spread
  refine H.rearrange (H.perm_restamp hr _) rfl ?_ ?_ ?_ ?_
  · exact (perm_cons_filter H.handles hr).symm.map Resident.key
  · refine List.pairwise_cons.mpr ⟨?_, H.stamps.filter _⟩
    intro a ha
    exact Int.lt_of_lt_of_le (Int.sub_one_lt_of_le (Int.le_refl _)) (hothers a ha).1
  · simp only [Ledger.demote, Ledger.restamp]
    omega
  · simp only [Ledger.demote, Ledger.restamp]
    intro a ha
    rcases List.mem_cons.mp ha with rfl | ha
    · dsimp only
      omega
    · have := hothers a ha
      omega

/-- Demoting a value that is not at hand changes nothing. -/
theorem demote_absent (H : l.Ranks rs) {h : Handle} (hnone : ∀ r ∈ rs, r.handle ≠ h) :
    (l.demote h).Ranks rs := by
  have hsame : (l.demote h).residents = l.residents := by
    refine (List.map_congr_left ?_).trans (List.map_id _)
    intro a ha
    exact if_neg (hnone a (H.residents.symm.subset ha))
  have hspread := H.spread
  have hlowest : (l.demote h).lowest = l.lowest - 1 := rfl
  have hnewest : (l.demote h).newest = l.newest := rfl
  refine H.rearrange (hsame ▸ H.residents) rfl (.refl _) H.stamps (by omega) ?_
  intro a ha
  have := H.bounds a ha
  omega

/-- A value just made goes to the back. -/
theorem enter (H : l.Ranks rs) {h : Handle} (hnone : ∀ r ∈ rs, r.handle ≠ h) (size : Nat) :
    Ranks { l.enter h size with residentBytes := l.residentBytes + size }
      (rs ++ [⟨h, size, l.newest + 1⟩]) := by
  have hspread := H.spread
  refine ⟨H.residents.append_right _, ?_, ?_, ?_, ?_, ?_⟩
  · refine List.pairwise_append.mpr ⟨H.stamps, List.pairwise_singleton _ _, ?_⟩
    intro a ha b hb
    rw [List.mem_singleton.mp hb]
    exact Int.lt_add_one_of_le (H.bounds a ha).2
  · simp only [Ledger.enter]
    omega
  · simp only [Ledger.enter]
    intro a ha
    rcases List.mem_append.mp ha with ha | ha
    · have := H.bounds a ha
      omega
    · rw [List.mem_singleton.mp ha]
      dsimp only
      omega
  · rw [List.map_append]
    apply H.handles.append (List.nodup_singleton _)
    intro g hg hh
    obtain ⟨r, hr, rfl⟩ := List.mem_map.mp hg
    exact hnone r hr (List.mem_singleton.mp hh)
  · simp [H.bytes]

/-- A rear part stays, and the total is that of the rear part. -/
theorem keep (H : l.Ranks rs) {leaving kept : List Resident} (hrs : rs = leaving ++ kept)
    (evictions : Nat) :
    Ranks { l with
      residents := l.residents.filter fun r => r.handle ∉ leaving.map (·.handle)
      residentBytes := (kept.map (·.size)).sum
      evictions } kept := by
  have hsub : kept.Sublist rs := hrs ▸ List.sublist_append_right _ _
  have hkept : rs.filter (fun r => r.handle ∉ leaving.map (·.handle)) = kept := by
    have hhandles := H.handles
    rw [hrs, List.map_append] at hhandles
    have hdisjoint := List.disjoint_of_nodup_append hhandles
    rw [hrs, List.filter_append, List.filter_eq_nil_iff.mpr, List.filter_eq_self.mpr,
      List.nil_append]
    · intro r hr
      have hout := fun hin => hdisjoint hin (List.mem_map_of_mem hr)
      simpa using hout
    · intro r hr
      simpa using ⟨r, hr, rfl⟩
  refine ⟨?_, H.stamps.sublist hsub, H.spread, fun a ha => H.bounds a (hsub.subset ha),
    H.handles.sublist (hsub.map _), rfl⟩
  have hperm := H.residents.filter fun r => r.handle ∉ leaving.map (·.handle)
  rwa [hkept] at hperm

/-- No value is at hand. -/
theorem clear (H : l.Ranks rs) : l.clear.Ranks [] :=
  ⟨.refl _, .nil, H.spread, by simp, by simp, rfl⟩

end Ranks

/-- The sum of the sizes is the total of the queue. -/
theorem sum_size_eq {V : Type} {q : Queue V} {rs : List Resident}
    (hkeys : rs.map Resident.key = q.map Item.key) : (rs.map (·.size)).sum = q.total := by
  have hsizes := congrArg (List.map Prod.snd) hkeys
  rw [List.map_map, List.map_map] at hsizes
  exact congrArg List.sum hsizes

theorem handles_eq {V : Type} {q : Queue V} {rs : List Resident}
    (hkeys : rs.map Resident.key = q.map Item.key) : rs.map (·.handle) = q.handles := by
  have hhandles := congrArg (List.map Prod.fst) hkeys
  rwa [List.map_map, List.map_map] at hhandles

theorem remove_key_eq {V : Type} {q : Queue V} {rs : List Resident}
    (hkeys : rs.map Resident.key = q.map Item.key) (h : Handle) :
    (rs.filter (·.handle ≠ h)).map Resident.key = (q.remove h).map Item.key := by
  have hfilter := congrArg (List.filter (·.1 ≠ h)) hkeys
  rwa [List.filter_map, List.filter_map] at hfilter

/-- Residents leave for a newcomer as they do from a queue. -/
theorem shed_eq {V : Type} {q : Queue V} {rs : List Resident}
    (hkeys : rs.map Resident.key = q.map Item.key) (budget newcomer : Nat) :
    ∃ leaving kept, rs = leaving ++ kept ∧
      kept.map Resident.key = (q.trim budget newcomer).map Item.key ∧
      shed budget (Queue.total q + newcomer) rs =
        (leaving, (kept.map (·.size)).sum + newcomer) := by
  induction rs generalizing q with
  | nil =>
    obtain rfl : q = [] := List.map_eq_nil_iff.mp hkeys.symm
    exact ⟨[], [], rfl, rfl, rfl⟩
  | cons r rs ih =>
    cases q with
    | nil => simp at hkeys
    | cons item q =>
      obtain ⟨hkey, hrest⟩ := List.cons.inj hkeys
      have hsize : r.size = item.size := congrArg Prod.snd hkey
      by_cases hover : budget < Queue.total (item :: q) + newcomer
      · obtain ⟨leaving, kept, rfl, hkept, hshed⟩ := ih hrest
        have htotal : Queue.total (item :: q) + newcomer - r.size = Queue.total q + newcomer := by
          simp only [Queue.total, List.map_cons, List.sum_cons]
          omega
        refine ⟨r :: leaving, kept, rfl, ?_, ?_⟩
        · rw [Queue.trim, if_pos hover]
          exact hkept
        · rw [shed, if_pos hover, htotal, hshed]
      · refine ⟨[], r :: rs, rfl, ?_, ?_⟩
        · rw [Queue.trim, if_neg hover]
          exact hkeys
        · rw [shed, if_neg hover, sum_size_eq hkeys]

/-- Enrolling a value just made lets the front leave and puts the value at the back. -/
theorem Ranks.enroll {V : Type} {l : Ledger} {rs : List Resident} {q : Queue V} (H : l.Ranks rs)
    (hkeys : rs.map Resident.key = q.map Item.key) {h : Handle} (hnone : ∀ r ∈ rs, r.handle ≠ h)
    {size : Nat} (hfits : q.total + size ≤ wordMax) :
    ∃ leaving kept after, rs = leaving ++ kept ∧
      kept.map Resident.key = (q.trim l.budget size).map Item.key ∧
      l.enroll h size = (some (leaving.map (·.handle)), after) ∧ after.budget = l.budget ∧
      after.Ranks (kept ++ [⟨h, size, l.newest + 1⟩]) := by
  let newcomer : Resident := ⟨h, size, l.newest + 1⟩
  have hfind : l.find? h = none := by
    rw [H.find?_eq, List.find?_eq_none]
    exact fun r hr => by simpa using hnone r hr
  have hforget : l.forget h = l := by rw [Ledger.forget, hfind]
  have htotal : l.residentBytes = q.total := H.bytes.trans (sum_size_eq hkeys)
  have hbytes : (l.enter h size).residentBytes = q.total := htotal
  have horder : (l.enter h size).order = rs ++ [newcomer] := (H.enter hnone size).order_eq
  have hothers : (rs ++ [newcomer]).filter (·.handle ≠ h) = rs := by
    rw [List.filter_append, List.filter_eq_self.mpr fun r hr => by simpa using hnone r hr]
    simp [newcomer]
  obtain ⟨leaving, kept, hrs, hkept, hshed⟩ := shed_eq hkeys l.budget size
  have hparts : rs ++ [newcomer] = leaving ++ (kept ++ [newcomer]) := by
    rw [hrs, List.append_assoc]
  have hkeep := (H.enter hnone size).keep hparts
    ((l.enter h size).evictions + (leaving.map (·.handle)).length)
  have hbudget : (l.enter h size).budget = l.budget := rfl
  have hsum : ((kept ++ [newcomer]).map (·.size)).sum = (kept.map (·.size)).sum + size := by
    simp [newcomer]
  have henroll : l.enroll h size = (some (leaving.map (·.handle)),
      { l.enter h size with
        residents := (l.enter h size).residents.filter fun r => r.handle ∉ leaving.map (·.handle)
        residentBytes := ((kept ++ [newcomer]).map (·.size)).sum
        evictions := (l.enter h size).evictions + (leaving.map (·.handle)).length }) := by
    rw [Ledger.enroll, hforget]
    simp only [hbytes, if_neg (Nat.not_lt.mpr hfits), horder, hothers, hbudget, hshed, hsum]
  exact ⟨leaving, kept, _, hrs, hkept, henroll, rfl, hkeep⟩

/-! ## The queue of a ledger -/

/-- The residents in the order in which they leave are the items of a queue. -/
def Mirrors {V : Type} (l : Ledger) (q : Queue V) : Prop :=
  ∃ rs, l.Ranks rs ∧ rs.map Resident.key = q.map Item.key

namespace Mirrors

variable {V : Type} {l : Ledger} {q : Queue V}

theorem empty (budget : Nat) : (Ledger.empty budget).Mirrors ([] : Queue V) :=
  ⟨[], .empty budget, rfl⟩

theorem handles (M : l.Mirrors q) : q.handles.Nodup := by
  obtain ⟨rs, H, hkeys⟩ := M
  exact handles_eq hkeys ▸ H.handles

/-- The running total is the total of the queue. -/
theorem bytes (M : l.Mirrors q) : l.residentBytes = q.total := by
  obtain ⟨rs, H, hkeys⟩ := M
  rw [H.bytes, sum_size_eq hkeys]

/-- In the order of the stamps, the residents are those of the queue. -/
theorem order (M : l.Mirrors q) : l.order.map Resident.key = q.map Item.key := by
  obtain ⟨rs, H, hkeys⟩ := M
  rw [H.order_eq, hkeys]

theorem length (M : l.Mirrors q) : l.residents.length = q.length := by
  obtain ⟨rs, H, hkeys⟩ := M
  have hlength := congrArg List.length hkeys
  rw [List.length_map, List.length_map] at hlength
  rw [← H.residents.length_eq, hlength]

theorem mem_iff (M : l.Mirrors q) {h : Handle} :
    h ∈ l.residents.map (·.handle) ↔ h ∈ q.handles := by
  obtain ⟨rs, H, hkeys⟩ := M
  rw [← handles_eq hkeys, (H.residents.map (·.handle)).mem_iff]

/-- The resident of a handle in the queue. -/
theorem resident (M : l.Mirrors q) {item : Item V} (hitem : item ∈ q) :
    ∃ rs r, l.Ranks rs ∧ rs.map Resident.key = q.map Item.key ∧ r ∈ rs ∧ r.key = item.key := by
  obtain ⟨rs, H, hkeys⟩ := M
  have hmem := List.mem_map_of_mem (f := Item.key) hitem
  rw [← hkeys] at hmem
  obtain ⟨r, hr, hkey⟩ := List.mem_map.mp hmem
  exact ⟨rs, r, H, hkeys, hr, hkey⟩

theorem hit (M : l.Mirrors q) {h : Handle} (hh : h ∈ q.handles) : (l.hit h).Mirrors (q.hit h) := by
  obtain ⟨item, hitem⟩ := Option.isSome_iff_exists.mp (Queue.item?_isSome_iff.mpr hh)
  obtain ⟨hmem, rfl⟩ := (Queue.item?_eq_some_iff M.handles).mp hitem
  obtain ⟨rs, r, H, hkeys, hr, hkey⟩ := M.resident hmem
  have hhandle : r.handle = item.handle := congrArg Prod.fst hkey
  rw [← hhandle] at hitem ⊢
  refine ⟨_, H.hit hr, ?_⟩
  rw [Queue.hit, hitem, List.map_append, List.map_append, remove_key_eq hkeys]
  exact congrArg (_ ++ [·]) hkey

theorem demote (M : l.Mirrors q) (h : Handle) : (l.demote h).Mirrors (q.lower h) := by
  cases hitem : q.item? h with
  | none =>
    obtain ⟨rs, H, hkeys⟩ := M
    rw [Queue.lower, hitem]
    refine ⟨rs, H.demote_absent ?_, hkeys⟩
    intro r hr heq
    refine Queue.item?_eq_none_iff.mp hitem ?_
    rw [← handles_eq hkeys, ← heq]
    exact List.mem_map_of_mem hr
  | some item =>
    obtain ⟨hmem, rfl⟩ := (Queue.item?_eq_some_iff M.handles).mp hitem
    obtain ⟨rs, r, H, hkeys, hr, hkey⟩ := M.resident hmem
    have hhandle : r.handle = item.handle := congrArg Prod.fst hkey
    rw [← hhandle] at hitem ⊢
    refine ⟨_, H.demote hr, ?_⟩
    rw [Queue.lower, hitem, List.map_cons, List.map_cons, remove_key_eq hkeys]
    exact congrArg (· :: _) hkey

theorem forget (M : l.Mirrors q) (h : Handle) : (l.forget h).Mirrors (q.remove h) := by
  obtain ⟨rs, H, hkeys⟩ := M
  exact ⟨_, H.forget h, remove_key_eq hkeys h⟩

theorem clear (M : l.Mirrors q) : l.clear.Mirrors ([] : Queue V) := by
  obtain ⟨rs, H, hkeys⟩ := M
  exact ⟨[], H.clear, rfl⟩

theorem generated (M : l.Mirrors q) : l.generated.Mirrors q := by
  obtain ⟨rs, H, hkeys⟩ := M
  exact ⟨rs, H.rearrange H.residents rfl (.refl _) H.stamps H.spread H.bounds, hkeys⟩

/-- A newcomer joins the queue of the ledger as it joins a queue. -/
theorem enroll (M : l.Mirrors q) {newcomer : Item V} (hnew : newcomer.handle ∉ q.handles)
    (hfits : q.total + newcomer.size ≤ wordMax) :
    ∃ leaving after, l.enroll newcomer.handle newcomer.size = (some leaving, after) ∧
      after.budget = l.budget ∧ after.Mirrors (q.enroll l.budget newcomer) ∧
      q.handles = leaving ++ (q.trim l.budget newcomer.size).handles := by
  obtain ⟨rs, H, hkeys⟩ := M
  have hnone : ∀ r ∈ rs, r.handle ≠ newcomer.handle := by
    intro r hr heq
    rw [← handles_eq hkeys, ← heq] at hnew
    exact hnew (List.mem_map_of_mem hr)
  obtain ⟨leaving, kept, after, hrs, hkept, henroll, hbudget, hafter⟩ :=
    H.enroll hkeys hnone hfits
  refine ⟨_, after, henroll, hbudget, ⟨_, hafter, ?_⟩, ?_⟩
  · rw [Queue.enroll, List.map_append, List.map_append, hkept]
    rfl
  · rw [← handles_eq hkeys, ← handles_eq hkept, hrs, List.map_append]

end Mirrors

end Ledger

end Patchwork.Cache
