import CommonTools.Lib.PartialList
import CommonTools.Simhash.SimConf

/-! # What a load stores

The loop stores a first part of the products, each under its own identifier.
The keys of a product come with those of all products before it. -/
namespace CommonTools.Simhash
open CommonTools.Lib

section
variable (hm : Hashmap Bytes Proconf)

/-- How many products the loop stores before it ends. -/
def storedCount : List Product → Proconf → hm.Table → Nat
  | [], _, _ => 0
  | p :: rest, ctmp, table =>
    if p.badPattern then 0
    else
      let ctmp := ctmp.read p
      let (ret, table) := hm.set table p.pid ctmp
      if hm.insertSec ≠ ret then 0 else storedCount rest ctmp table + 1

/-- What the loop means to store, product by product. -/
def records : Proconf → List Product → List (Bytes × Proconf)
  | _, [] => []
  | ctmp, p :: rest => (p.pid, ctmp.read p) :: records (ctmp.read p) rest

end

section
variable {hm : Hashmap Bytes Proconf}

/-- What one round does: it stops at the pattern or at the map, or goes on. -/
theorem loadLoop_cons (p : Product) (rest : List Product) (ctmp : Proconf) (ret : Int)
    (table : hm.Table) :
    (p.badPattern = true ∧ storedCount hm (p :: rest) ctmp table = 0 ∧
      loadLoop hm (p :: rest) ctmp ret table = (ret, table)) ∨
    (p.badPattern = false ∧ (hm.set table p.pid (ctmp.read p)).1 ≠ hm.insertSec ∧
      storedCount hm (p :: rest) ctmp table = 0 ∧
      loadLoop hm (p :: rest) ctmp ret table = hm.set table p.pid (ctmp.read p)) ∨
    (p.badPattern = false ∧ (hm.set table p.pid (ctmp.read p)).1 = hm.insertSec ∧
      storedCount hm (p :: rest) ctmp table =
        storedCount hm rest (ctmp.read p) (hm.set table p.pid (ctmp.read p)).2 + 1 ∧
      loadLoop hm (p :: rest) ctmp ret table =
        loadLoop hm rest (ctmp.read p) hm.insertSec (hm.set table p.pid (ctmp.read p)).2) := by
  rw [storedCount, loadLoop]
  cases hbad : p.badPattern with
  | true => exact .inl ⟨rfl, rfl, rfl⟩
  | false =>
    by_cases hset : (hm.set table p.pid (ctmp.read p)).1 = hm.insertSec
    · exact .inr (.inr ⟨rfl, hset, by simp [hset], by simp [hset]⟩)
    · exact .inr (.inl ⟨rfl, hset, by simp [Ne.symm hset], by simp [Ne.symm hset]⟩)

theorem storedCount_le : ∀ (products : List Product) (ctmp : Proconf) (table : hm.Table),
    storedCount hm products ctmp table ≤ products.length := by
  intro rest
  induction rest with
  | nil =>
    intro _ _
    exact Nat.le_refl _
  | cons p rest ih =>
    intro ctmp table
    have ih := ih (ctmp.read p) (hm.set table p.pid (ctmp.read p)).2
    obtain ⟨-, hn, -⟩ | ⟨-, -, hn, -⟩ | ⟨-, -, hn, -⟩ := loadLoop_cons p rest ctmp 0 table
    · omega
    · omega
    · rw [hn, List.length_cons]
      omega

/-- What is stored was not in the map before. -/
theorem stored_fresh : ∀ (products : List Product) (ctmp : Proconf) (table : hm.Table)
    (pid : Bytes), pid ∈ ((records ctmp products).take (storedCount hm products ctmp table)).map
      Prod.fst → hm.get table pid = none := by
  intro rest
  induction rest with
  | nil =>
    intro _ _ _ h
    exact by simp [records] at h
  | cons p rest ih =>
    intro ctmp table pid h
    obtain ⟨-, hn, -⟩ | ⟨-, -, hn, -⟩ | ⟨-, hset, hn, -⟩ := loadLoop_cons p rest ctmp 0 table
    · simp [hn] at h
    · simp [hn] at h
    · have hfresh : hm.get table p.pid = none := by
        by_contra hsome
        exact hm.set_present table p.pid (ctmp.read p) (Option.isSome_iff_ne_none.mpr hsome) hset
      rw [hn, records, List.take_succ_cons, List.map_cons, List.mem_cons] at h
      rcases h with rfl | h
      · exact hfresh
      · have hrest := ih _ _ pid h
        rw [hm.get_set _ _ _ hset] at hrest
        by_cases hpid : pid = p.pid
        · rw [hpid]; exact hfresh
        · rwa [Function.update_of_ne hpid] at hrest

theorem stored_not_again {p : Product} {c : Proconf} {table : hm.Table}
    (hset : (hm.set table p.pid c).1 = hm.insertSec) (rest : List Product) :
    p.pid ∉ ((records c rest).take (storedCount hm rest c (hm.set table p.pid c).2)).map
      Prod.fst := by
  intro hin
  have hfresh := stored_fresh rest _ _ p.pid hin
  rw [hm.get_set _ _ _ hset, Function.update_self] at hfresh
  cases hfresh

theorem stored_nodup : ∀ (products : List Product) (ctmp : Proconf) (table : hm.Table),
    (((records ctmp products).take (storedCount hm products ctmp table)).map Prod.fst).Nodup := by
  intro rest
  induction rest with
  | nil =>
    intro _ _
    exact by simp [records]
  | cons p rest ih =>
    intro ctmp table
    obtain ⟨-, hn, -⟩ | ⟨-, -, hn, -⟩ | ⟨-, hset, hn, -⟩ := loadLoop_cons p rest ctmp 0 table
    · simp [hn]
    · simp [hn]
    · rw [hn, records, List.take_succ_cons, List.map_cons, List.nodup_cons]
      exact ⟨stored_not_again hset rest, ih _ _⟩

theorem loadLoop_get : ∀ (products : List Product) (ctmp : Proconf) (ret : Int) (table : hm.Table)
    (pid : Bytes), hm.get (loadLoop hm products ctmp ret table).2 pid =
      (((records ctmp products).take (storedCount hm products ctmp table)).lookup pid).or
        (hm.get table pid) := by
  intro rest
  induction rest with
  | nil =>
    intro _ _ _ _
    exact by simp [records, loadLoop]
  | cons p rest ih =>
    intro ctmp ret table pid
    obtain ⟨-, hn, hloop⟩ | ⟨-, hset, hn, hloop⟩ | ⟨-, hset, hn, hloop⟩ :=
      loadLoop_cons p rest ctmp ret table
    · rw [hn, hloop]; rfl
    · rw [hn, hloop, hm.get_set_refused _ _ _ hset]; rfl
    · rw [hn, hloop, ih, hm.get_set _ _ _ hset, records, List.take_succ_cons,
        List.lookup_cons]
      by_cases hpid : pid = p.pid
      · subst hpid
        have hnot := lookup_eq_none_of_notMem (stored_not_again hset rest)
        rw [hnot, Function.update_self]
        simp
      · have hne : (pid == p.pid) = false := by simpa using hpid
        rw [hne, Function.update_of_ne hpid]

/-- How the loop ends: with all products stored, at a bad pattern, or at a
product that the map does not take. -/
theorem loadLoop_ends : ∀ (products : List Product) (ctmp : Proconf) (ret : Int)
    (table : hm.Table),
    (storedCount hm products ctmp table = products.length ∧
      (loadLoop hm products ctmp ret table).1 = 0) ∨
    ∃ p, products[storedCount hm products ctmp table]? = some p ∧
      ((p.badPattern = true ∧ ((loadLoop hm products ctmp ret table).1 = ret ∨
        (loadLoop hm products ctmp ret table).1 = hm.insertSec)) ∨
      p.badPattern = false ∧ ∃ t c, loadLoop hm products ctmp ret table = hm.set t p.pid c ∧
        (hm.set t p.pid c).1 ≠ hm.insertSec ∧
        ((hm.get t p.pid).isSome → (hm.get table p.pid).isSome ∨
          p.pid ∈ (products.take (storedCount hm products ctmp table)).map Product.pid)) := by
  intro rest
  induction rest with
  | nil =>
    intro _ _ _
    exact .inl ⟨rfl, rfl⟩
  | cons p rest ih =>
    intro ctmp ret table
    obtain ⟨hbad, hn, hloop⟩ | ⟨hgood, hset, hn, hloop⟩ | ⟨-, hset, hn, hloop⟩ :=
      loadLoop_cons p rest ctmp ret table
    · rw [hn, hloop]
      exact .inr ⟨p, rfl, .inl ⟨hbad, .inl rfl⟩⟩
    · rw [hn, hloop]
      exact .inr ⟨p, rfl, .inr ⟨hgood, table, ctmp.read p, rfl, hset, .inl⟩⟩
    · rw [hn, hloop]
      obtain ⟨hall, hzero⟩ | ⟨q, hq, hend⟩ := ih (ctmp.read p) hm.insertSec
        (hm.set table p.pid (ctmp.read p)).2
      · exact .inl ⟨by rw [hall, List.length_cons], hzero⟩
      · refine .inr ⟨q, by rwa [List.getElem?_cons_succ], ?_⟩
        rcases hend with ⟨hbad, hret⟩ | ⟨hgood, t, c, hret, href, hpresent⟩
        · exact .inl ⟨hbad, .inr (hret.elim id id)⟩
        · refine .inr ⟨hgood, t, c, hret, href, fun hsome => ?_⟩
          rw [List.take_succ_cons, List.map_cons, List.mem_cons]
          rcases hpresent hsome with hold | hin
          · rw [hm.get_set _ _ _ hset] at hold
            by_cases hpid : q.pid = p.pid
            · exact .inr (.inl hpid)
            · rw [Function.update_of_ne hpid] at hold
              exact .inl hold
          · exact .inr (.inr hin)

/-! ## Accumulated keys -/

theorem records_getElem? : ∀ (products : List Product) (ctmp : Proconf) (i : Nat) (p : Product),
    products[i]? = some p → ∃ c, (records ctmp products)[i]? = some (p.pid, c) ∧
      c.permanentKeys = ctmp.permanentKeys ++ (products.take (i + 1)).flatMap Product.permanentkey
  | [], _, _, _, h => by simp at h
  | q :: rest, ctmp, 0, p, h => by
    obtain rfl := Option.some.inj h
    exact ⟨ctmp.read q, rfl, by simp [Proconf.read]⟩
  | q :: rest, ctmp, i + 1, p, h => by
    obtain ⟨c, hc, hkeys⟩ := records_getElem? rest (ctmp.read q) i p h
    exact ⟨c, hc, by rw [hkeys]; simp [Proconf.read]⟩

/-- A load that returns zero has run the loop on a cleared map. -/
theorem loadProductConf_zero {file : Option (List Product)} {table : hm.Table}
    (h : (loadProductConf hm file table).1 = 0) :
    ∃ products, file = some products ∧ (hm.clear table).1 = 0 ∧
      loadProductConf hm file table = loadLoop hm products .declared (-1) (hm.clear table).2 := by
  cases file with
  | none => cases h
  | some products =>
    rw [loadProductConf] at h ⊢
    dsimp only at h ⊢
    by_cases hclear : (hm.clear table).1 = 0
    · rw [if_neg (not_not_intro hclear)] at h ⊢
      by_cases hlen : products.length = 0
      · rw [if_pos hlen] at h; cases h
      · rw [if_neg hlen] at h ⊢
        exact ⟨products, rfl, hclear, rfl⟩
    · rw [if_pos hclear] at h; cases h

theorem loadProductConf_loop {products : List Product} {table : hm.Table}
    (h : (loadProductConf hm (some products) table).1 = 0) :
    (hm.clear table).1 = 0 ∧ loadProductConf hm (some products) table =
      loadLoop hm products .declared (-1) (hm.clear table).2 := by
  obtain ⟨_, heq, hclear, hload⟩ := loadProductConf_zero h
  obtain rfl := Option.some.inj heq
  exact ⟨hclear, hload⟩

/-- The products that a load stores. -/
def stored (hm : Hashmap Bytes Proconf) (products : List Product) (table : hm.Table) :
    List Product :=
  products.take (storedCount hm products .declared (hm.clear table).2)

/-- A load finds the record of each stored product, with the keys of all
products up to it. -/
theorem stored_get {products : List Product} {table : hm.Table}
    (h : (loadProductConf hm (some products) table).1 = 0) {i : Nat} {p : Product}
    (hp : (stored hm products table)[i]? = some p) :
    ∃ c, hm.get (loadProductConf hm (some products) table).2 p.pid = some c ∧
      c.permanentKeys = ((stored hm products table).take (i + 1)).flatMap Product.permanentkey := by
  obtain ⟨hclear, hload⟩ := loadProductConf_loop h
  rw [stored, List.getElem?_take] at hp
  split at hp
  · rename_i hlt
    obtain ⟨c, hc, hkeys⟩ := records_getElem? products .declared i p hp
    have hmem := List.mem_of_getElem? ((List.getElem?_take_of_lt hlt).trans hc)
    refine ⟨c, ?_, ?_⟩
    · rw [hload, loadLoop_get, lookup_of_mem hmem (stored_nodup _ _ _)]
      rfl
    · rw [hkeys, stored, List.take_take, Nat.min_eq_left hlt]
      rfl
  · cases hp

/-! ## Keys of other products -/

/-- The keys up to each product are its own. -/
theorem accumulated_eq_iff (ps : List Product) :
    (∀ i p, ps[i]? = some p → (ps.take (i + 1)).flatMap Product.permanentkey = p.permanentkey) ↔
      ∀ p ∈ ps.dropLast, p.permanentkey = [] := by
  constructor
  · intro h p hp
    rw [List.dropLast_eq_take] at hp
    obtain ⟨i, hi, rfl⟩ := List.mem_take_iff_getElem.mp hp
    have hlt : i + 1 < ps.length := by omega
    have hnext := h (i + 1) _ (List.getElem?_eq_getElem hlt)
    rw [List.take_add_one, List.getElem?_eq_getElem hlt, List.flatMap_append] at hnext
    have hnil : (ps.take (i + 1)).flatMap Product.permanentkey = [] :=
      List.append_cancel_right (hnext.trans (by simp))
    exact List.flatMap_eq_nil_iff.mp hnil _ (List.mem_take_iff_getElem.mpr ⟨i, by omega, rfl⟩)
  · intro h i p hp
    have hlt := (List.getElem?_eq_some_iff.mp hp).1
    have hnil : (ps.take i).flatMap Product.permanentkey = [] := by
      refine List.flatMap_eq_nil_iff.mpr fun q hq => h q ?_
      rw [List.dropLast_eq_take]
      exact List.take_subset_take_left _ (by omega) hq
    rw [List.take_add_one, hp, List.flatMap_append, hnil]
    simp

/-- The keys up to each product are among its own. -/
theorem accumulated_mem_iff (ps : List Product) :
    (∀ i p, ps[i]? = some p → ∀ key, key ∈ (ps.take (i + 1)).flatMap Product.permanentkey ↔
      key ∈ p.permanentkey) ↔ ps.Pairwise fun p q => p.permanentkey ⊆ q.permanentkey := by
  constructor
  · intro h
    rw [List.pairwise_iff_getElem]
    intro i j hi hj hij key hkey
    refine (h j _ (List.getElem?_eq_getElem hj) key).mp (List.mem_flatMap.mpr ⟨ps[i], ?_, hkey⟩)
    exact List.mem_take_iff_getElem.mpr ⟨i, by omega, rfl⟩
  · intro h i p hp key
    obtain ⟨hi, rfl⟩ := List.getElem?_eq_some_iff.mp hp
    constructor
    · intro hkey
      obtain ⟨q, hq, hkey⟩ := List.mem_flatMap.mp hkey
      obtain ⟨j, hj, rfl⟩ := List.mem_take_iff_getElem.mp hq
      rcases Nat.lt_or_eq_of_le (show j ≤ i by omega) with hlt | rfl
      · exact List.pairwise_iff_getElem.mp h j i _ hi hlt hkey
      · exact hkey
    · intro hkey
      exact List.mem_flatMap.mpr ⟨_, List.mem_take_iff_getElem.mpr ⟨i, by omega, rfl⟩, hkey⟩

theorem redisKeyIsPermanent_iff (key : Bytes) (pconf : Proconf) :
    redisKeyIsPermanent key pconf = true ↔ key ∈ pconf.permanentKeys := by
  rw [redisKeyIsPermanent, List.any_eq_true]
  constructor
  · rintro ⟨k, hk, heq⟩
    exact eq_of_beq heq ▸ hk
  · exact fun hk => ⟨key, hk, beq_self_eq_true key⟩

/-- Every product is stored when the map tells success and refusal of a new key
from zero. -/
theorem stored_eq {products : List Product} {table : hm.Table}
    (h : (loadProductConf hm (some products) table).1 = 0) (hsec : hm.insertSec ≠ 0)
    (hrefused : ∀ t k c, hm.get t k = none → (hm.set t k c).1 ≠ hm.insertSec →
      (hm.set t k c).1 ≠ 0)
    (hnd : (products.map Product.pid).Nodup) : stored hm products table = products := by
  obtain ⟨hclear, hload⟩ := loadProductConf_loop h
  rw [hload] at h
  obtain ⟨hall, -⟩ | ⟨p, hp, ⟨-, hret⟩ | ⟨-, t, c, hret, href, hpresent⟩⟩ :=
    loadLoop_ends products .declared (-1) (hm.clear table).2
  · rw [stored, hall, List.take_length]
  · rw [h] at hret
    rcases hret with hret | hret
    · cases hret
    · exact absurd hret.symm hsec
  · rw [hret] at h
    by_cases hin : (hm.get t p.pid).isSome
    · rw [hm.get_clear table hclear] at hpresent
      have hmem := (hpresent hin).resolve_left (by simp)
      obtain ⟨hlt, rfl⟩ := List.getElem?_eq_some_iff.mp hp
      rw [List.map_take] at hmem
      obtain ⟨j, hj, hsame⟩ := List.mem_take_iff_getElem.mp hmem
      rw [List.length_map] at hj
      rw [← List.getElem_map Product.pid (h := by rwa [List.length_map])] at hsame
      have hindex := hnd.getElem_inj_iff.mp hsame
      omega
    · exact absurd h (hrefused t p.pid c (by simpa using hin) href)

/-- **When the products keep apart.** -/
theorem permanentKeys_exact_iff {products : List Product} {table : hm.Table}
    (h : (loadProductConf hm (some products) table).1 = 0) :
    (hm.insertSec ≠ 0 → (∀ t k c, hm.get t k = none → (hm.set t k c).1 ≠ hm.insertSec →
      (hm.set t k c).1 ≠ 0) → (products.map Product.pid).Nodup →
      stored hm products table = products) ∧
    ((∀ p ∈ stored hm products table, ∃ c,
        hm.get (loadProductConf hm (some products) table).2 p.pid = some c ∧
          c.permanentKeys = p.permanentkey) ↔
      ∀ p ∈ (stored hm products table).dropLast, p.permanentkey = []) ∧
    ((∀ p ∈ stored hm products table, ∃ c,
        hm.get (loadProductConf hm (some products) table).2 p.pid = some c ∧
          ∀ key, redisKeyIsPermanent key c = true ↔ key ∈ p.permanentkey) ↔
      (stored hm products table).Pairwise fun p q => p.permanentkey ⊆ q.permanentkey) := by
  -- every stored product has one record, so the properties speak of that record
  have hrecord : ∀ (P : Product → List Bytes → Prop),
      (∀ p ∈ stored hm products table, ∃ c,
        hm.get (loadProductConf hm (some products) table).2 p.pid = some c ∧
          P p c.permanentKeys) ↔
      ∀ i p, (stored hm products table)[i]? = some p →
        P p (((stored hm products table).take (i + 1)).flatMap Product.permanentkey) := by
    intro P
    constructor
    · intro hall i p hp
      obtain ⟨c, hc, hP⟩ := hall p (List.mem_of_getElem? hp)
      obtain ⟨c', hc', hkeys⟩ := stored_get h hp
      obtain rfl := Option.some.inj (hc.symm.trans hc')
      rwa [← hkeys]
    · intro hall p hp
      obtain ⟨i, hi⟩ := List.getElem?_of_mem hp
      obtain ⟨c, hc, hkeys⟩ := stored_get h hi
      exact ⟨c, hc, hkeys ▸ hall i p hi⟩
  refine ⟨stored_eq h, ?_, ?_⟩
  · rw [← accumulated_eq_iff]
    exact hrecord fun p keys => keys = p.permanentkey
  · rw [← accumulated_mem_iff]
    simp only [redisKeyIsPermanent_iff]
    exact hrecord fun p keys => ∀ key, key ∈ keys ↔ key ∈ p.permanentkey

/-! ## Reloads -/

def reloads (hm : Hashmap Bytes Proconf) (globals : Globals hm)
    (files : List (Option (List Product))) : Globals hm :=
  files.foldl (confOntimeReload hm) globals

/-- No reload of the run succeeds. -/
abbrev AllFail (hm : Hashmap Bytes Proconf) : Globals hm → List (Option (List Product)) → Prop :=
  DoubleBuffer.AllFail (loadProductConf hm)

theorem records_take : ∀ (products : List Product) (ctmp : Proconf) (n : Nat),
    (records ctmp products).take n = records ctmp (products.take n)
  | [], _, _ => by simp [records]
  | _ :: _, _, 0 => rfl
  | p :: rest, ctmp, n + 1 => congrArg (_ :: ·) (records_take rest (ctmp.read p) n)

/-- What lookups find when these products have been loaded. -/
def contents (products : List Product) (pid : Bytes) : Option Proconf :=
  (records .declared products).lookup pid

theorem loadProductConf_get {products : List Product} {table : hm.Table}
    (h : (loadProductConf hm (some products) table).1 = 0) :
    hm.get (loadProductConf hm (some products) table).2 = contents (stored hm products table) := by
  obtain ⟨hclear, hload⟩ := loadProductConf_loop h
  funext pid
  rw [hload, loadLoop_get, hm.get_clear table hclear, Option.or_none, records_take]
  rfl

/-- The map refuses the product behind those stored, and with the status zero. -/
def RefusedWithZero (hm : Hashmap Bytes Proconf) (products : List Product) (table : hm.Table) :
    Prop :=
  ∃ p t c, products[(stored hm products table).length]? = some p ∧ p.badPattern = false ∧
    hm.get t = contents (stored hm products table) ∧ (hm.set t p.pid c).1 ≠ hm.insertSec ∧
    (hm.set t p.pid c).1 = 0

/-- A load that returns zero has stored all products, or it ends at one that is refused so. -/
theorem loadProductConf_reports {products : List Product} {table : hm.Table}
    (hsec : hm.insertSec ≠ 0) (h : (loadProductConf hm (some products) table).1 = 0) :
    stored hm products table = products ∨ RefusedWithZero hm products table := by
  obtain ⟨hclear, hload⟩ := loadProductConf_loop h
  have hget := loadProductConf_get h
  rw [hload] at h hget
  have hlen : (stored hm products table).length =
      storedCount hm products .declared (hm.clear table).2 := by
    rw [stored, List.length_take, Nat.min_eq_left (storedCount_le _ _ _)]
  obtain ⟨hall, -⟩ | ⟨p, hp, ⟨-, hret⟩ | ⟨hgood, t, c, hret, href, -⟩⟩ :=
    loadLoop_ends products .declared (-1) (hm.clear table).2
  · exact .inl (by rw [stored, hall, List.take_length])
  · rw [h] at hret
    rcases hret with hret | hret
    · cases hret
    · exact absurd hret.symm hsec
  · rw [hret] at h hget
    rw [hm.get_set_refused _ _ _ href] at hget
    exact .inr ⟨p, t, c, by rw [hlen, hp], hgood, hget, href, h⟩

/-- A reload that reports failure changes no lookup. -/
theorem reloads_failed {globals : Globals hm} {files : List (Option (List Product))}
    {file : Option (List Product)}
    (h : (loadProductConf hm file (reloads hm globals files).spare).1 ≠ 0) :
    getProconf hm (reloads hm globals (files ++ [file])) =
      getProconf hm (reloads hm globals files) := by
  have hlast : reloads hm globals (files ++ [file]) =
      (reloads hm globals files).attempt (loadProductConf hm) file := List.foldl_concat _ _ _ _
  funext pid
  rw [getProconf, getProconf, hlast, DoubleBuffer.visible_attempt, if_neg h]

/-- **Reloading is atomic.** Lookups find what the last successful load has stored, also while
the spare map is being filled: all its products, unless the map refuses one with the status
zero. A reload that ends at a product changes nothing but in that case. -/
theorem confOntimeReload_atomic (hsec : hm.insertSec ≠ 0) (globals : Globals hm)
    (files : List (Option (List Product))) :
    ((AllFail hm globals files ∧
        getProconf hm (reloads hm globals files) = getProconf hm globals) ∨
      ∃ before products after, files = before ++ some products :: after ∧
        (loadProductConf hm (some products) (reloads hm globals before).spare).1 = 0 ∧
        AllFail hm (reloads hm globals (before ++ [some products])) after ∧
        getProconf hm (reloads hm globals files) =
          contents (stored hm products (reloads hm globals before).spare) ∧
        (stored hm products (reloads hm globals before).spare = products ∨
          RefusedWithZero hm products (reloads hm globals before).spare)) ∧
    (∀ file, (loadProductConf hm file (reloads hm globals files).spare).1 ≠ 0 →
      getProconf hm (reloads hm globals (files ++ [file])) =
        getProconf hm (reloads hm globals files)) ∧
    (∀ products, stored hm products (reloads hm globals files).spare ≠ products →
      ¬ RefusedWithZero hm products (reloads hm globals files).spare →
      getProconf hm (reloads hm globals (files ++ [some products])) =
        getProconf hm (reloads hm globals files)) ∧
    ∀ table, getProconf hm ((reloads hm globals files).writeSpare table) =
      getProconf hm (reloads hm globals files) := by
  refine ⟨?_, fun _ => reloads_failed, fun products hends hcause => reloads_failed fun hret => ?_,
    fun table => ?_⟩
  · obtain hfail | ⟨before, file, after, hfiles, hok, hfail, hvis⟩ :=
      DoubleBuffer.run_visible (loadProductConf hm) globals files
    · exact .inl ⟨hfail, congrArg hm.get hfail.visible⟩
    · obtain ⟨products, rfl, -, -⟩ := loadProductConf_zero hok
      exact .inr ⟨before, products, after, hfiles, hok, hfail,
        (congrArg hm.get hvis).trans (loadProductConf_get hok), loadProductConf_reports hsec hok⟩
  · rcases loadProductConf_reports hsec hret with hall | hzero
    · exact hends hall
    · exact hcause hzero
  · funext pid
    rw [getProconf, DoubleBuffer.visible_writeSpare, getProconf]

end

/-! ### Two products -/

/-- A map that keeps its entries in a list. -/
def listMap : Hashmap Bytes Proconf where
  Table := List (Bytes × Proconf)
  insertSec := 1
  clear _ := (0, [])
  set t k c := if (t.lookup k).isSome then (-1, t) else (1, (k, c) :: t)
  get t k := t.lookup k
  get_clear _ _ _ := rfl
  get_set t k c h := by
    split at h
    · cases h
    · rename_i hnew
      rw [if_neg hnew]
      funext k'
      rw [List.lookup_cons]
      by_cases hk : k' = k
      · subst hk; simp
      · have hne : (k' == k) = false := by simpa using hk
        rw [hne, Function.update_of_ne hk]
  get_set_refused t k c h := by
    split
    · rfl
    · rename_i hnew
      rw [if_neg hnew] at h
      exact absurd rfl h
  set_present t k c h := by
    rw [if_pos h]
    exact fun he => by cases he

/-- A product with these permanent keys and no other settings. -/
def plainProduct (pid : Bytes) (keys : List Bytes) : Product := ⟨pid, 0, 0, 0, 0, 0, 0, 0, keys⟩

/-- The first product lists a key, the second none. -/
def keyedThenPlain : List Product :=
  [plainProduct [byteOf 'a'] [[byteOf 'k']], plainProduct [byteOf 'b'] []]

theorem permanentKeys_left_over :
    (loadProductConf listMap (some keyedThenPlain) []).1 = 0 ∧
      ¬ ∀ p ∈ keyedThenPlain, ∃ c,
        listMap.get (loadProductConf listMap (some keyedThenPlain) []).2 p.pid = some c ∧
          ∀ key, redisKeyIsPermanent key c = true ↔ key ∈ p.permanentkey := by
  refine ⟨by decide, fun h => ?_⟩
  obtain ⟨c, hc, hkeys⟩ := h (plainProduct [byteOf 'b'] []) (by simp [keyedThenPlain])
  have hstored : listMap.get (loadProductConf listMap (some keyedThenPlain) []).2 [byteOf 'b'] =
      some { Proconf.declared with permanentKeys := [[byteOf 'k']] } := by decide
  obtain rfl := Option.some.inj (hc.symm.trans hstored)
  exact absurd ((hkeys [byteOf 'k']).mp (by decide)) List.not_mem_nil

/-- In the other order the second product alone has the key. -/
theorem permanentKeys_exact_iff_plainThenKeyed :
    ∃ c, listMap.get (loadProductConf listMap (some keyedThenPlain.reverse) []).2 [byteOf 'a'] =
      some c ∧ c.permanentKeys = [[byteOf 'k']] := by
  have hload : (loadProductConf listMap (some keyedThenPlain.reverse) []).1 = 0 := by decide
  obtain ⟨hall, hexact, -⟩ := permanentKeys_exact_iff hload
  have hstored : stored listMap keyedThenPlain.reverse [] = keyedThenPlain.reverse := by
    refine hall (by decide) (fun t k c _ href hzero => ?_) (by decide)
    dsimp only [listMap] at hzero
    split at hzero
    · cases hzero
    · cases hzero
  rw [hstored] at hexact
  refine hexact.mpr (fun p hp => ?_) (plainProduct [byteOf 'a'] [[byteOf 'k']]) (by decide)
  have hone : keyedThenPlain.reverse.dropLast = [plainProduct [byteOf 'b'] []] := rfl
  rw [hone, List.mem_singleton] at hp
  rw [hp]
  rfl

/-- Its second product has a pattern out of range. -/
def plainThenBad : List Product :=
  [plainProduct [byteOf 'b'] [], { plainProduct [byteOf 'a'] [] with pattern := 3 }]

theorem confOntimeReload_atomic_plainThenBad :
    getProconf listMap
        (reloads listMap ⟨fun _ => [], 0⟩ ([some keyedThenPlain] ++ [some plainThenBad])) =
      getProconf listMap (reloads listMap ⟨fun _ => [], 0⟩ [some keyedThenPlain]) := by
  have hsec : listMap.insertSec ≠ 0 := by decide
  obtain ⟨-, -, hends, -⟩ := confOntimeReload_atomic hsec ⟨fun _ => [], 0⟩ [some keyedThenPlain]
  refine hends plainThenBad (by decide +kernel) fun hzero => ?_
  -- this map refuses nothing with zero
  obtain ⟨p, t, c, -, -, -, -, hzero⟩ := hzero
  dsimp only [listMap] at hzero
  split at hzero
  · cases hzero
  · cases hzero

/-- A map that reports zero for a key that is there. -/
def zeroMap : Hashmap Bytes Proconf where
  __ := listMap
  set t k c := if (t.lookup k).isSome then (0, t) else (1, (k, c) :: t)
  get_set t k c h := by
    have hnew : ¬ (t.lookup k).isSome := fun hold => by rw [if_pos hold] at h; cases h
    have hlist := listMap.get_set t k c
    dsimp only [listMap] at hlist ⊢
    rw [if_neg hnew] at hlist ⊢
    exact hlist rfl
  get_set_refused t k c h := by
    by_cases hold : (t.lookup k).isSome
    · rw [if_pos hold]
    · rw [if_neg hold] at h
      exact absurd rfl h
  set_present t k c h := by
    have hold : (t.lookup k).isSome := h
    rw [if_pos hold]
    exact fun he => by cases he

/-- The second product has the identifier of the first one. -/
def twiceThenPlain : List Product :=
  [plainProduct [byteOf 'c'] [], plainProduct [byteOf 'c'] [], plainProduct [byteOf 'd'] []]

/-- A refused product ends the reload, and readers see the products in front of it. -/
theorem confOntimeReload_atomic_zero : zeroMap.insertSec ≠ 0 ∧
    let globals := reloads zeroMap ⟨fun _ => [], 0⟩ [some keyedThenPlain]
    let globals' := reloads zeroMap ⟨fun _ => [], 0⟩ [some keyedThenPlain, some twiceThenPlain]
    (loadProductConf zeroMap (some twiceThenPlain) globals.spare).1 = 0 ∧
      stored zeroMap twiceThenPlain globals.spare ≠ twiceThenPlain ∧
      getProconf zeroMap globals' [byteOf 'a'] ≠ getProconf zeroMap globals [byteOf 'a'] ∧
      getProconf zeroMap globals' [byteOf 'd'] ≠ contents twiceThenPlain [byteOf 'd'] := by
  refine ⟨by decide, ?_, ?_, ?_, ?_⟩
  · decide +kernel
  · decide +kernel
  · decide +kernel
  · decide +kernel

end CommonTools.Simhash
