import RustFits.CompressedTable.Select

/-!
# Selections through the tile cache

A selection of rows and columns is read through the tile cache, which is keyed by the
numbers of the tile and the column, cut to 32 bits.  So two tiles may share a key.

* `SelectsExactly`: every read, after any other reads, gives the array of the whole table
  restricted to its rows and columns, and asks for the slabs of its tiles only.
* `KeysServe`: the slabs that share a key hold the same cells.  That is the case when the
  numbers are below 2³² (`keysServe_of_few`).
-/

namespace RustFits.CompressedTable

open Ascii ByteFile Machine BigEndian
open Header (toAsciiUppercase)

/-! ## Reads through the cache -/

/-- A fetch through the tile cache that notes the keys of the slabs that were asked for. -/
def noting (key : Nat × Nat) (compute : Except PyErr Bytes) :
    EStateM PyErr (ColumnTileCache × List (Nat × Nat)) Bytes := fun s =>
  match LruCache.fetch key compute s.1 with
  | .ok bytes cache => .ok bytes (cache, key :: s.2)
  | .error e cache => .error e (cache, key :: s.2)

section

variable (codec : Codec) {Value : Type} (render : Render Value) (columns : List Column)
  (file : Bytes)
  (cards : List Card) (dataOffset : Nat)

/-- The caches of this capacity that reads of the table leave behind. -/
inductive Warm (maxBytes : Nat) : ColumnTileCache → Prop
  | start : Warm maxBytes (.new maxBytes)
  | read {cache cache' : ColumnTileCache} {keys : List (Nat × Nat)} {rows : Option RowsArg}
      {names : Option (List Str)} {request : ReadRequest} {cells : List ((Nat × Nat) × Value)} :
      Warm maxBytes cache →
      resolveRequest columns (shapeOf cards).nRows rows names = .ok request →
      readTable codec noting render columns file cards dataOffset request (cache, []) =
        .ok cells (cache', keys) →
      Warm maxBytes cache'

/-- The key is that of a tile with a requested row and of a requested column. -/
def AskedFor (request : ReadRequest) (key : Nat × Nat) : Prop :=
  ∃ i row, rowAt (shapeOf cards) request.rows i = some row ∧ ∃ p ∈ request.selected,
    key = cacheKey (row / (shapeOf cards).ztilelen) p.2

/-- After any reads, a read of any rows and columns gives the array of the whole table,
restricted to them, and asks for no slab but those of the tiles with a requested row. -/
def SelectsExactly (full : List ((Nat × Nat) × Value)) : Prop :=
  ∀ maxBytes cache, Warm codec render columns file cards dataOffset maxBytes cache →
    ∀ rows names request, resolveRequest columns (shapeOf cards).nRows rows names = .ok request →
      ∃ cells cache' keys,
        readTable codec noting render columns file cards dataOffset request (cache, []) =
          .ok cells (cache', keys) ∧
        Projects (shapeOf cards) request full cells ∧ ∀ key ∈ keys, AskedFor cards request key

end

section

variable {codec : Codec} {Value : Type} {render : Render Value} {columns : List Column}
  {file : Bytes}
  {cards : List Card} {dataOffset : Nat} {request : ReadRequest}

/-- The rows of a resolved request are rows of the table. -/
theorem rowsInside_of_resolve {rows : Option RowsArg} {names : Option (List Str)} {nRows : Nat}
    {shape : Shape} (hshape : shape.nRows = nRows)
    (h : resolveRequest columns nRows rows names = .ok request) :
    RowsInside shape request.rows := by
  obtain ⟨selected, -, h⟩ := bind_eq_ok.1 h
  obtain ⟨resolved, hrows, h⟩ := bind_eq_ok.1 h
  obtain rfl := Except.ok.inj h
  intro i row hat
  cases rows with
  | none =>
    obtain rfl := Except.ok.inj hrows
    unfold rowAt at hat
    dsimp only at hat
    split_ifs at hat with hlt
    rw [← Option.some.inj hat]
    exact hlt
  | some arg =>
    obtain ⟨list, hlist, rfl⟩ := map_eq_ok_iff.1 hrows
    rw [hshape]
    exact resolveRows_lt hlist (List.mem_of_getElem? hat)

/-- A name that is new and stands for a column. -/
theorem resolveNames_found {all : List Column} {seen names : List Str} {name : Str}
    {column : Column} (hseen : toAsciiUppercase (trim name) ∉ seen)
    (hfind : (all.find? fun c => toAsciiUppercase c.name = toAsciiUppercase (trim name)) =
      some column) :
    resolveNames all seen (name :: names) =
      resolveNames all (toAsciiUppercase (trim name) :: seen) names >>= fun rest =>
        .ok (column :: rest) := by
  change ite (toAsciiUppercase (trim name) ∈ seen) _ _ = _
  rw [if_neg hseen, hfind]
  rfl

theorem resolveNames_mem {all : List Column} {names : List Str} :
    ∀ {seen : List Str} {found : List Column}, resolveNames all seen names = .ok found →
      ∀ column ∈ found, column ∈ all := by
  induction names with
  | nil =>
    intro seen found h column hmem
    obtain rfl := Except.ok.inj h
    cases hmem
  | cons name names ih =>
    intro seen found h column hmem
    change ite (toAsciiUppercase (trim name) ∈ seen) _ _ = Except.ok found at h
    split_ifs at h
    cases hfind : all.find? fun c => toAsciiUppercase c.name = toAsciiUppercase (trim name) with
    | none =>
      rw [hfind] at h
      cases h
    | some first =>
      rw [hfind] at h
      obtain ⟨rest, hrest, h⟩ := bind_eq_ok.1 h
      obtain rfl := Except.ok.inj h
      rcases List.mem_cons.1 hmem with rfl | hmem
      · exact List.mem_of_find?_eq_some hfind
      · exact ih hrest column hmem

/-- The columns of a resolved request are columns of the table, each with its place. -/
theorem selected_of_resolve (hnamed : NamedApart columns) {rows : Option RowsArg}
    {names : Option (List Str)} {nRows : Nat}
    (h : resolveRequest columns nRows rows names = .ok request) :
    ∀ p ∈ request.selected, columns[p.2]? = some p.1 := by
  obtain ⟨selected, hselected, h⟩ := bind_eq_ok.1 h
  obtain ⟨resolved, -, h⟩ := bind_eq_ok.1 h
  obtain rfl := Except.ok.inj h
  have hmem : ∀ column ∈ selected, column ∈ columns := by
    cases names with
    | none =>
      obtain rfl := Except.ok.inj hselected
      exact fun _ hmem => hmem
    | some names =>
      unfold chosenColumns resolveColumns at hselected
      dsimp only at hselected
      split_ifs at hselected
      exact resolveNames_mem hselected
  intro p hp
  obtain ⟨column, hcolumn, rfl⟩ := List.mem_map.1 hp
  obtain ⟨col, hcol⟩ := List.mem_iff_getElem?.1 (hmem column hcolumn)
  rw [hnamed.placeOf hcol]
  exact hcol

end

section

variable {codec : Codec} {Value : Type} {render : Render Value} {columns : List Column}
  {file : Bytes}
  {cards : List Card} {dataOffset : Nat} {request : ReadRequest} {full : List ((Nat × Nat) × Value)}

/-- A fetch of a slab of the table, when the slabs that share a key hold the same cells. -/
theorem triple_noting (hkeys : KeysServe codec render columns file cards dataOffset)
    {L : Nat × Nat → Prop} {tile col : Nat} {column : Column} {slab : Bytes}
    (htile : tile < (shapeOf cards).nTiles) (hcolumn : columns[col]? = some column)
    (hslab : SlabAt codec file cards dataOffset tile col column slab) (hL : L (cacheKey tile col)) :
    Triple (fun s => LruCache.All (ServesKey codec render columns file cards dataOffset) s.1 ∧
        ∀ key ∈ s.2, L key)
      (noting (cacheKey tile col) (.ok slab))
      (fun found s => Serves codec render file cards dataOffset tile col column slab found ∧
        LruCache.All (ServesKey codec render columns file cards dataOffset) s.1 ∧
        ∀ key ∈ s.2, L key)
      fun _ _ => False := by
  intro s hs
  have hcompute : (.ok slab : Except PyErr Bytes) = .ok slab := rfl
  have hfetch := LruCache.triple_fetch_ok hcompute
    (hkeys tile col column slab htile hcolumn hslab) s.1 hs.1
  unfold noting
  cases hrun : LruCache.fetch (cacheKey tile col) (.ok slab : Except PyErr Bytes) s.1 with
  | error e cache =>
    rw [hrun] at hfetch
    exact hfetch
  | ok found cache =>
    rw [hrun] at hfetch
    refine ⟨hfetch.1 tile col column slab htile hcolumn rfl hslab, hfetch.2, fun key hkey => ?_⟩
    rcases List.mem_cons.1 hkey with rfl | hkey
    · exact hL
    · exact hs.2 key hkey

/-- Decoding without a cache, as a program without a state. -/
def decoding (_ : Nat × Nat) (compute : Except PyErr Bytes) : EStateM PyErr Unit Bytes :=
  raise compute

theorem exists_readTable_fresh (htiled : Tiled (shapeOf cards))
    (hreadable : (shapeOf cards).nRows ≠ 0 → columns ≠ [] →
      Readable codec render columns file cards dataOffset)
    (hinside : RowsInside (shapeOf cards) request.rows)
    (hselected : ∀ p ∈ request.selected, columns[p.2]? = some p.1) :
    ∃ cells, readTable codec fresh render columns file cards dataOffset request = .ok cells ∧
      RequestCells codec render columns file cards dataOffset request cells := by
  have hrun : Triple (fun _ => True)
      (readTable codec decoding render columns file cards dataOffset request)
      (fun cells _ => RequestCells codec render columns file cards dataOffset request cells ∧ True)
      fun _ _ => False := by
    refine triple_readTable htiled hreadable hinside hselected fun tile _ p _ slab _ => ?_
    exact Triple.pure fun _ _ => ⟨fun _ _ _ hvalue => hvalue, trivial⟩
  have hfollows : Follows (fun _ => True)
      (readTable codec decoding render columns file cards dataOffset request)
      (readTable codec fresh render columns file cards dataOffset request) := by
    refine follows_readTable_of_fetch render fun tile _ p _ descRow _ => ?_
    dsimp only
    generalize decodeSlab _ _ _ _ _ _ _ _ = slab
    have hraise := follows_raise (I := fun _ : Unit => True) slab
    rw [raise_except] at hraise
    exact hraise
  obtain ⟨cells, s, hok, hcells, -⟩ := hrun.exists_ok (s := ()) trivial
  exact ⟨cells, (hfollows.ok trivial hok).1, hcells⟩

/-- The request of the whole table. -/
theorem request_everything (hnamed : NamedApart columns)
    (hrequest : resolveRequest columns (shapeOf cards).nRows none none = .ok request) :
    request.rows = none ∧ ∀ (col : Nat) (column : Column), columns[col]? = some column →
      request.selected[col]? = some (column, col) := by
  obtain rfl := Except.ok.inj hrequest
  refine ⟨rfl, fun col column hcolumn => ?_⟩
  rw [List.getElem?_map, hcolumn]
  show some (column, placeOf columns column) = _
  rw [hnamed.placeOf hcolumn]

/-- The array of the whole table has the value of the file at every place. -/
theorem full_returnedCell (hnamed : NamedApart columns) (htiled : Tiled (shapeOf cards))
    (hreadable : (shapeOf cards).nRows ≠ 0 → columns ≠ [] →
      Readable codec render columns file cards dataOffset)
    (hrequest : resolveRequest columns (shapeOf cards).nRows none none = .ok request)
    (hfull : readTable codec fresh render columns file cards dataOffset request = .ok full)
    {row col : Nat} {column : Column} (hrow : row < (shapeOf cards).nRows)
    (hcolumn : columns[col]? = some column) :
    ∃ value, returnedCell full row col = some value ∧
      FreshCell codec render columns file cards dataOffset (row / (shapeOf cards).ztilelen) col
        (row % (shapeOf cards).ztilelen) value := by
  have hinside := rowsInside_of_resolve rfl hrequest
  obtain ⟨cells, hok, hcells⟩ := exists_readTable_fresh htiled hreadable hinside
    (selected_of_resolve hnamed hrequest)
  rw [hfull, Except.ok.injEq] at hok
  subst hok
  obtain ⟨hrows, hsel⟩ := request_everything hnamed hrequest
  refine hcells.returnedCell htiled hinside ?_ (hsel col column hcolumn)
  rw [hrows]
  exact if_pos hrow

/-- A read through a cache that serves its keys gives the array of the whole table, restricted
to its rows and columns, and leaves such a cache. -/
theorem exists_readTable_noting (hnamed : NamedApart columns) (htiled : Tiled (shapeOf cards))
    (hreadable : (shapeOf cards).nRows ≠ 0 → columns ≠ [] →
      Readable codec render columns file cards dataOffset)
    (hkeys : KeysServe codec render columns file cards dataOffset) {everyCell : ReadRequest}
    (hevery : resolveRequest columns (shapeOf cards).nRows none none = .ok everyCell)
    (hfull : readTable codec fresh render columns file cards dataOffset everyCell = .ok full)
    {rows : Option RowsArg} {names : Option (List Str)}
    (hrequest : resolveRequest columns (shapeOf cards).nRows rows names = .ok request)
    {cache : ColumnTileCache}
    (hcache : LruCache.All (ServesKey codec render columns file cards dataOffset) cache) :
    ∃ cells cache' keys,
      readTable codec noting render columns file cards dataOffset request (cache, []) =
        .ok cells (cache', keys) ∧
      Projects (shapeOf cards) request full cells ∧ (∀ key ∈ keys, AskedFor cards request key) ∧
      LruCache.All (ServesKey codec render columns file cards dataOffset) cache' := by
  have hinside := rowsInside_of_resolve rfl hrequest
  have hselected := selected_of_resolve hnamed hrequest
  have hrun :
        Triple (fun s => LruCache.All (ServesKey codec render columns file cards dataOffset) s.1 ∧
        ∀ key ∈ s.2, AskedFor cards request key)
      (readTable codec noting render columns file cards dataOffset request)
      (fun cells s => RequestCells codec render columns file cards dataOffset request cells ∧
        LruCache.All (ServesKey codec render columns file cards dataOffset) s.1 ∧
        ∀ key ∈ s.2, AskedFor cards request key) fun _ _ => False := by
    refine triple_readTable htiled hreadable hinside hselected fun tile htile p hp slab hslab => ?_
    obtain ⟨q, hq⟩ := exists_request htiled htile
    obtain ⟨row, hat, hdiv, -⟩ := (mem_tilesWithRequests htiled hinside).1 ⟨tile, htile, rfl, hq⟩
    refine triple_noting hkeys ?_ (hselected p hp) hslab ⟨q.2, row, hat, p, hp, by rw [hdiv]⟩
    refine ((htiled.row_iff (t := tile.1) (r := row % (shapeOf cards).ztilelen)).2 ?_).1
    rw [← hdiv, Nat.div_add_mod']
    exact ⟨hinside _ _ hat, Nat.mod_lt _ htiled.pos⟩
  obtain ⟨cells, s, hok, hcells, hs⟩ := hrun.exists_ok (s := (cache, []))
    ⟨hcache, fun _ hkey => absurd hkey List.not_mem_nil⟩
  refine ⟨cells, s.1, s.2, hok, ⟨?_, ?_⟩, hs.2, hs.1⟩
  · intro i row hat j p hp
    obtain ⟨value, hvalue, hfresh⟩ := full_returnedCell hnamed htiled hreadable hevery hfull
      (hinside i row hat) (hselected p (List.mem_of_getElem? hp))
    obtain ⟨value', hvalue', hfresh'⟩ := hcells.returnedCell htiled hinside hat hp
    exact ⟨value', hvalue', hfresh'.unique hfresh ▸ hvalue⟩
  · intro i j hfilled
    obtain ⟨value, hvalue⟩ := Option.isSome_iff_exists.1 hfilled
    obtain ⟨row, p, hat, hp, -⟩ := hcells.of_mem htiled hinside (mem_of_returnedCell hvalue)
    rw [hat, hp]
    exact ⟨rfl, rfl⟩

/-- Every cache that reads leave behind serves its keys, if the slabs that share a key hold the
same cells. -/
theorem selectsExactly_of_keysServe (hnamed : NamedApart columns) (htiled : Tiled (shapeOf cards))
    (hreadable : (shapeOf cards).nRows ≠ 0 → columns ≠ [] →
      Readable codec render columns file cards dataOffset)
    (hkeys : KeysServe codec render columns file cards dataOffset) {everyCell : ReadRequest}
    (hevery : resolveRequest columns (shapeOf cards).nRows none none = .ok everyCell)
    (hfull : readTable codec fresh render columns file cards dataOffset everyCell = .ok full) :
    SelectsExactly codec render columns file cards dataOffset full := by
  intro maxBytes cache hwarm rows names request hrequest
  have hcache : LruCache.All (ServesKey codec render columns file cards dataOffset) cache := by
    induction hwarm with
    | start => exact LruCache.all_new maxBytes
    | read _ hrequest hrun ih =>
      obtain ⟨cells, cache, keys, hok, -, -, hall⟩ := exists_readTable_noting hnamed htiled
        hreadable hkeys hevery hfull hrequest ih
      rw [hrun, EStateM.Result.ok.injEq, Prod.mk.injEq] at hok
      rw [hok.2.1]
      exact hall
  obtain ⟨cells, cache', keys, hok, hprojects, hasked, -⟩ := exists_readTable_noting hnamed htiled
    hreadable hkeys hevery hfull hrequest hcache
  exact ⟨cells, cache', keys, hok, hprojects, hasked⟩

/-! ## Reading one cell -/

theorem tilesWithRequests_one (htiled : Tiled (shapeOf cards)) (row : Nat) :
    tilesWithRequests (shapeOf cards) (some [row]) =
      [(row / (shapeOf cards).ztilelen, [(row % (shapeOf cards).ztilelen, 0)])] := by
  have hpos := htiled.pos
  generalize shapeOf cards = shape at *
  show requestsByTile shape.ztilelen [row] = _
  unfold requestsByTile
  simp only [if_neg hpos.ne', List.map_cons, List.map_nil, List.foldr_cons, List.foldr_nil,
    Nat.max_zero]
  rw [List.range_succ, List.filterMap_append]
  rw [List.filterMap_eq_nil_iff.2 fun tile htile => ?_]
  · simp
  · have hne : ¬row / shape.ztilelen = tile := by
      have := List.mem_range.1 htile
      omega
    simp [hne]

/-- The read of one cell. -/
theorem readTable_one (htiled : Tiled (shapeOf cards)) {row col : Nat} {column : Column}
    {slab : Bytes} {σ : Type} (fetch : Nat × Nat → Except PyErr Bytes → EStateM PyErr σ Bytes)
    (hwidth : (shapeOf cards).rowWidth = columns.length * 16)
    (hslab : SlabAt codec file cards dataOffset (row / (shapeOf cards).ztilelen) col column slab)
    (helem : column.varKind.isSome → ∃ n, vlaElemSize column = .ok n) :
    readTable codec fetch render columns file cards dataOffset ⟨some [row], [(column, col)]⟩ = do
      let found ← fetch (cacheKey (row / (shapeOf cards).ztilelen) col) (.ok slab)
      let value ← raise (cellFromSlab codec render file cards dataOffset
        (row / (shapeOf cards).ztilelen) col column found (row % (shapeOf cards).ztilelen, 0))
      return [((0, 0), value)] := by
  obtain ⟨descRow, hrow, hfirst, hsecond, hdecode⟩ := hslab
  have hraise : ∀ {α : Type} (a : α), (raise (.ok a) : EStateM PyErr σ α) = pure a := fun _ => rfl
  have hcol : readColumnTile codec fetch render file (row / (shapeOf cards).ztilelen)
      ((shapeOf cards).rowsInTile (row / (shapeOf cards).ztilelen)) (dataOffset + heapBase cards)
      descRow [(row % (shapeOf cards).ztilelen, 0)] ((column, col), 0) = do
      let found ← fetch (cacheKey (row / (shapeOf cards).ztilelen) col) (.ok slab)
      let value ← raise (cellFromSlab codec render file cards dataOffset
        (row / (shapeOf cards).ztilelen) col column found (row % (shapeOf cards).ztilelen, 0))
      return [((0, 0), value)] := by
    unfold readColumnTile
    dsimp only
    rw [if_neg (by omega), hdecode]
    unfold cellFromSlab
    cases hkind : column.varKind with
    | none => simp [hraise]
    | some kind =>
      obtain ⟨n, hn⟩ := helem (by rw [hkind]; rfl)
      have hbind : ∀ f : Nat → Except PyErr Value, (Except.ok n >>= f) = f n := fun _ => rfl
      change (raise (.ok ()) >>= fun _ => raise (vlaElemSize column) >>= _) = _
      rw [hn]
      simp [hraise, hbind]
  unfold readTable
  dsimp only
  rw [if_neg (by simp [outputRows]), if_neg (not_not.2 hwidth), tilesWithRequests_one htiled,
    List.mapM_cons, List.mapM_nil]
  unfold readTile
  rw [hrow]
  simp only [hraise, pure_bind, List.zipIdx_cons, List.zipIdx_nil, List.mapM_cons, List.mapM_nil]
  rw [hcol]
  simp

theorem resolveRequest_one (hnamed : NamedApart columns) {row col nRows : Nat} {column : Column}
    (hcolumn : columns[col]? = some column) (hrow : row < nRows)
    (hsmall : nRows ≤ 9223372036854775807) :
    resolveRequest columns nRows (some (.entries [some (row : Int)])) (some [column.name]) =
      .ok ⟨some [row], [(column, col)]⟩ := by
  have hentry : resolveRow nRows (some (row : Int)) = .ok row := by
    unfold resolveRow
    rw [Option.filter_some, if_pos (decide_eq_true (by unfold InI64; omega))]
    dsimp only
    rw [if_neg (show ¬(row : Int) < 0 by omega), if_neg (by omega), Int.toNat_natCast]
  have hrows : chosenRows nRows (some (.entries [some (row : Int)])) = .ok (some [row]) := by
    show Except.map some (([some (row : Int)].mapM (resolveRow nRows) >>= _)) = _
    rw [List.mapM_cons, hentry, List.mapM_nil]
    rfl
  have hfind : columns.find? (fun c =>
      toAsciiUppercase c.name = toAsciiUppercase (trim column.name)) = some column := by
    obtain ⟨hlt, hself, hbefore⟩ := List.findIdx?_eq_some_iff_getElem.1 (hnamed col column hcolumn)
    obtain ⟨_, heq⟩ := List.getElem?_eq_some_iff.1 hcolumn
    rw [List.find?_eq_some_iff_getElem]
    refine ⟨heq ▸ hself, col, hlt, heq, fun j hj => ?_⟩
    simpa using hbefore j hj
  have hnames : chosenColumns columns (some [column.name]) = .ok [column] := by
    show resolveNames columns [] [column.name] = _
    rw [resolveNames_found List.not_mem_nil hfind]
    rfl
  unfold resolveRequest
  rw [hnames, hrows]
  show Except.ok (ReadRequest.mk (some [row]) [(column, placeOf columns column)]) = _
  rw [hnamed.placeOf hcolumn]

/-- A slab that fits is found again. -/
theorem get_put_new {key : Nat × Nat} (slab : Bytes) :
    ((LruCache.new (slab.length + 1)).put key slab).get? key =
      some (slab, (LruCache.new (slab.length + 1)).put key slab) := by
  unfold LruCache.put LruCache.new
  rw [if_neg (by show ¬slab.length + 1 = 0; omega),
    if_neg (by show ¬slab.length + 1 < slab.length; omega)]
  simp [LruCache.get?, LruCache.evict]

/-- A slab that the cache has is taken from it. -/
theorem noting_hit {key : Nat × Nat} {cache cache' : ColumnTileCache} {slab : Bytes}
    (h : cache.get? key = some (slab, cache')) (compute : Except PyErr Bytes)
    (keys : List (Nat × Nat)) :
    noting key compute (cache, keys) = .ok slab (cache', key :: keys) := by
  unfold noting
  rw [LruCache.fetch_hit h]

/-- The program of `readTable_one`, when its slab is fetched. -/
theorem run_one {σ : Type} {x : EStateM PyErr σ Bytes} {s s' : σ} {found : Bytes}
    (hx : x s = .ok found s') (cell : Bytes → Except PyErr Value) :
    (do
      let found ← x
      let value ← raise (cell found)
      return [(((0 : Nat), (0 : Nat)), value)] : EStateM PyErr σ (List ((Nat × Nat) × Value))) s =
    match cell found with
    | .ok value => .ok [((0, 0), value)] s'
    | .error e => .error e s' := by
  show EStateM.bind x _ s = _
  unfold EStateM.bind
  rw [hx]
  show (raise (cell found) >>= fun value => pure [((0, 0), value)] : EStateM PyErr σ _) s' = _
  cases cell found with
  | ok value => rfl
  | error e => rfl

/-- If every read gives its part of the whole table, the slabs that share a key hold the same
cells: two reads of one cell each find out. -/
theorem keysServe_of_selectsExactly (hnamed : NamedApart columns) (htiled : Tiled (shapeOf cards))
    (hrender : render.RowInErrorsOnly)
    (hreadable : (shapeOf cards).nRows ≠ 0 → columns ≠ [] →
      Readable codec render columns file cards dataOffset) {everyCell : ReadRequest}
    (hevery : resolveRequest columns (shapeOf cards).nRows none none = .ok everyCell)
    (hfull : readTable codec fresh render columns file cards dataOffset everyCell = .ok full)
    (h : SelectsExactly codec render columns file cards dataOffset full) :
    KeysServe codec render columns file cards dataOffset := by
  intro tile col column slab htile hcolumn hslab tile' col' column' slab' htile'
    hcolumn' hkey hslab'
    inTile hin value hvalue
  have hsmall : (shapeOf cards).nRows ≤ 9223372036854775807 := natKeyword_le cards (str "ZNAXIS2")
  obtain ⟨hlt, -⟩ := htiled.row_iff.1 ⟨htile, htiled.rowsInTile_pos htile⟩
  obtain ⟨hlt', hin'⟩ := htiled.row_iff.1 ⟨htile', hin⟩
  have hpos := htiled.pos
  have hr := hreadable (by omega) fun hnil => by
    rw [hnil] at hcolumn
    cases hcolumn
  have hdiv : tile * (shapeOf cards).ztilelen / (shapeOf cards).ztilelen = tile :=
    Nat.mul_div_cancel _ hpos
  have hdiv' : (tile' * (shapeOf cards).ztilelen + inTile) / (shapeOf cards).ztilelen = tile' := by
    rw [Nat.mul_comm, Nat.mul_add_div hpos, Nat.div_eq_of_lt hin', Nat.add_zero]
  have hmod' : (tile' * (shapeOf cards).ztilelen + inTile) % (shapeOf cards).ztilelen = inTile := by
    rw [Nat.mul_comm, Nat.mul_add_mod, Nat.mod_eq_of_lt hin']
  -- the first read puts the slab of the first tile in the cache
  obtain ⟨_, hfirst, hvalues⟩ := hr.slab tile htile col column hcolumn
  obtain rfl := hslab.unique hfirst
  obtain ⟨first, hfirst⟩ := hvalues 0 (htiled.rowsInTile_pos htile)
  have hrun : readTable codec noting render columns file cards dataOffset
      ⟨some [tile * (shapeOf cards).ztilelen], [(column, col)]⟩ (.new (slab.length + 1), []) =
      .ok [((0, 0), first)]
        ((LruCache.new (slab.length + 1)).put (cacheKey tile col) slab, [cacheKey tile col]) := by
    rw [readTable_one htiled noting hr.width (hdiv.symm ▸ hslab) hfirst.vlaElemSize, hdiv,
      Nat.mul_mod_left]
    have hput : noting (cacheKey tile col) (.ok slab) (LruCache.new (slab.length + 1), []) =
        .ok slab ((LruCache.new (slab.length + 1)).put (cacheKey tile col) slab,
          [cacheKey tile col]) := rfl
    rw [run_one hput, hfirst 0]
  have hwarm := Warm.read .start (resolveRequest_one hnamed hcolumn hlt hsmall) hrun
  -- the second read is served from it
  obtain ⟨cells, cache, keys, hok, hprojects, -⟩ := h _ _ hwarm _ _ _
    (resolveRequest_one hnamed hcolumn' hlt' hsmall)
  rw [readTable_one htiled noting hr.width (hdiv'.symm ▸ hslab') hvalue.vlaElemSize,
    hdiv', hmod'] at hok
  rw [hkey, run_one (noting_hit (get_put_new slab) (.ok slab') [])] at hok
  cases hcell :
    cellFromSlab codec render file cards dataOffset tile' col' column' slab (inTile, 0) with
  | error e =>
    rw [hcell] at hok
    cases hok
  | ok found =>
    rw [hcell] at hok
    obtain ⟨rfl, -⟩ := EStateM.Result.ok.inj hok
    obtain ⟨value', hleft, hright⟩ := hprojects.cell 0 _ rfl 0 _ rfl
    obtain ⟨value'', hvalue'', hfresh⟩ :=
      full_returnedCell hnamed htiled hreadable hevery hfull hlt' hcolumn'
    rw [hvalue'', Option.some.injEq] at hright
    rw [hdiv', hmod'] at hfresh
    have hsame := hfresh.unique ⟨column', slab', hcolumn', hslab', hvalue⟩
    have hfound : found = value' := Option.some.inj hleft
    rw [hfound, ← hright, hsame] at hcell
    exact holds_of_ok hrender hcell

/-- A table reads every selection as the restriction of the whole table if and only if the slabs
that share a key of the cache hold the same cells. -/
theorem selectsExactly_iff (hnamed : NamedApart columns) (htiled : Tiled (shapeOf cards))
    (hrender : render.RowInErrorsOnly) {everyCell : ReadRequest}
    (hevery : resolveRequest columns (shapeOf cards).nRows none none = .ok everyCell)
    (hfull : readTable codec fresh render columns file cards dataOffset everyCell = .ok full) :
    SelectsExactly codec render columns file cards dataOffset full ↔
      KeysServe codec render columns file cards dataOffset := by
  have hreadable := readable_of_full hnamed hrender hevery hfull
  exact ⟨keysServe_of_selectsExactly hnamed htiled hrender hreadable hevery hfull,
    fun hkeys => selectsExactly_of_keysServe hnamed htiled hreadable hkeys hevery hfull⟩

/-- Tiles and columns of 32-bit numbers do not share a key. -/
theorem keysServe_of_few (htiles : (shapeOf cards).nTiles ≤ 4294967296)
    (hcolumns : columns.length ≤ 4294967296) :
    KeysServe codec render columns file cards dataOffset := by
  intro tile col column slab htile hcolumn hslab tile' col' column' slab' htile'
    hcolumn' hkey hslab'
  obtain ⟨hcol, -⟩ := List.getElem?_eq_some_iff.1 hcolumn
  obtain ⟨hcol', -⟩ := List.getElem?_eq_some_iff.1 hcolumn'
  obtain ⟨rfl, rfl⟩ := cacheKey_inj (by omega) (by omega) (by omega) (by omega) hkey
  rw [hcolumn, Option.some.injEq] at hcolumn'
  subst hcolumn'
  obtain rfl := hslab.unique hslab'
  exact fun _ _ _ hvalue => hvalue

end

/-! ### Tables of single bytes -/

theorem rowInErrorsOnly_rawCells : rawCells.RowInErrorsOnly :=
  ⟨fun _ _ _ _ _ h => h, fun _ _ _ _ _ _ h => h⟩

theorem namedApart_byteColumn : NamedApart [byteColumn] := by
  intro col column hcolumn
  cases col with
  | zero =>
    obtain rfl := Option.some.inj hcolumn
    decide
  | succ col => cases hcolumn

/-- RICE_1 on the bytes 5 and 6, and on one byte as `riceOfByte`. -/
def riceOfPair : Codec :=
  { riceOfByte with
    decompressColumnSlab := fun _ n blob =>
      .ok (if n = 2 ∧ blob = [0x05, 0x32] then [5, 6] else blob.take n) }

/-- Three rows in a tile of two and a last one of one row. -/
def pairCards : List Card :=
  [str "XTENSION= 'BINTABLE'", str "BITPIX  =                    8",
    str "NAXIS   =                    2", str "NAXIS1  =                   16",
    str "NAXIS2  =                    2", str "PCOUNT  =                    4",
    str "GCOUNT  =                    1", str "TFIELDS =                    1",
    str "TTYPE1  = 'A       '", str "TFORM1  = '1QB     '", str "ZTABLE  =                    T",
    str "ZTILELEN=                    2", str "ZNAXIS1 =                    1",
    str "ZNAXIS2 =                    3", str "ZPCOUNT =                    0",
    str "ZFORM1  = '1B      '", str "ZCTYP1  = 'RICE_1  '", endCard]

def pairBytes : Bytes :=
  writeDescriptor .q 2 0 ++ writeDescriptor .q 2 2 ++ [0x05, 0x32, 0x07, 0x00]

theorem shapeOf_pairCards : shapeOf pairCards = ⟨3, 2, 2, 16⟩ := by
  unfold shapeOf
  rw [show natKeyword pairCards (str "ZNAXIS2") = 3 by decide +kernel,
    show natKeyword pairCards (str "NAXIS2") = 2 by decide +kernel,
    show natKeyword pairCards (str "ZTILELEN") = 2 by decide +kernel,
    show natKeyword pairCards (str "NAXIS1") = 16 by decide +kernel]

theorem selectsExactly_byte :
    SelectsExactly riceOfPair rawCells [byteColumn] pairBytes pairCards 0
        [((0, 0), [5]), ((1, 0), [6]), ((2, 0), [7])] ∧
      ∃ cells cache keys, readTable riceOfPair noting rawCells [byteColumn] pairBytes pairCards 0
          ⟨some [2, 1, 0], [(byteColumn, 0)]⟩ (.new 100, []) = .ok cells (cache, keys) ∧
        Projects (shapeOf pairCards) ⟨some [2, 1, 0], [(byteColumn, 0)]⟩
          [((0, 0), [5]), ((1, 0), [6]), ((2, 0), [7])] cells := by
  have hread : readTable riceOfPair fresh rawCells [byteColumn] pairBytes pairCards 0 byteRequest =
      .ok [((0, 0), [5]), ((1, 0), [6]), ((2, 0), [7])] := by
    decide +kernel
  have htiled : Tiled (shapeOf pairCards) := by
    rw [shapeOf_pairCards]
    exact ⟨by decide, by decide, by decide⟩
  have hfew : (shapeOf pairCards).nTiles ≤ 4294967296 := by
    rw [shapeOf_pairCards]
    decide
  have hexact := (selectsExactly_iff namedApart_byteColumn htiled rowInErrorsOnly_rawCells rfl
    hread).2 (keysServe_of_few hfew (by decide))
  have hreversed : resolveRequest [byteColumn] (shapeOf pairCards).nRows
      (some (.entries [some 2, some 1, some 0])) none =
        .ok ⟨some [2, 1, 0], [(byteColumn, 0)]⟩ := by
    rw [shapeOf_pairCards]
    rfl
  obtain ⟨cells, cache, keys, hrun, hcells, -⟩ := hexact 100 (.new 100) .start _ none _ hreversed
  exact ⟨hexact, cells, cache, keys, hrun, hcells⟩

/-- The file of a table with `n` tiles of a row with the byte 5, and a last one with the byte 7. -/
def manyBytes (n : Nat) : Bytes :=
  (List.replicate n (writeDescriptor .q 1 0)).flatten ++ writeDescriptor .q 1 1 ++ [5, 7]

/-- The counts of such a table are in its cards. -/
structure ManyTiles (cards : List Card) (n : Nat) : Prop where
  shape : shapeOf cards = ⟨n + 1, n + 1, 1, 16⟩
  heap : heapBase cards = (n + 1) * 16

section

variable {cards : List Card} {n tile : Nat}

theorem manyBytes_length (n : Nat) : (manyBytes n).length = (n + 1) * 16 + 2 := by
  have hlen : (writeDescriptor .q 1 0).length = 16 := writeDescriptor_length .q 1 0
  have hlast : (writeDescriptor .q 1 1).length = 16 := writeDescriptor_length .q 1 1
  simp [manyBytes, hlen, hlast]
  omega

/-- The descriptor of a tile. -/
theorem slice_manyBytes (htile : tile ≤ n) :
    slice (manyBytes n) (tile * 16) 16 = writeDescriptor .q 1 (if tile < n then 0 else 1) := by
  have hlen : ∀ off, (writeDescriptor .q 1 off).length = 16 := writeDescriptor_length .q 1
  have hbefore : (List.replicate tile (writeDescriptor .q 1 0)).flatten.length = tile * 16 := by
    simp [hlen]
  unfold manyBytes
  split_ifs with hlt
  · obtain ⟨k, rfl⟩ := Nat.exists_eq_add_of_lt hlt
    rw [Nat.add_assoc, ← List.replicate_append_replicate, List.flatten_append, List.append_assoc,
      List.append_assoc, slice_append_behind hbefore, List.replicate_succ, List.flatten_cons,
      List.append_assoc, List.take_left' (hlen 0)]
  · obtain rfl : tile = n := by omega
    rw [List.append_assoc, slice_append_behind hbefore, List.take_left' (hlen 1)]

/-- The byte of a tile. -/
def manyByte (n tile : Nat) : UInt8 := if tile < n then 5 else 7

/-- The blob of a tile. -/
theorem slice_manyHeap (n tile : Nat) :
    slice (manyBytes n) ((n + 1) * 16 + if tile < n then 0 else 1) 1 = [manyByte n tile] := by
  have hlen : ∀ off, (writeDescriptor .q 1 off).length = 16 := writeDescriptor_length .q 1
  have hrows : ((List.replicate n (writeDescriptor .q 1 0)).flatten ++
      writeDescriptor .q 1 1).length = (n + 1) * 16 := by
    simp [hlen]
    omega
  unfold manyBytes manyByte
  split_ifs
  · rw [Nat.add_zero, slice_append_behind hrows]
    rfl
  · rw [← List.singleton_append (l := [7]), ← List.append_assoc,
      slice_append_behind (by rw [List.length_append, hrows]; rfl)]
    rfl

theorem ManyTiles.tiled (h : ManyTiles cards n) : Tiled (shapeOf cards) := by
  rw [h.shape]
  refine ⟨Nat.one_pos, ?_, fun _ => ?_⟩
  · show n + 1 ≤ (n + 1) * 1
    omega
  · show (n + 1 - 1) * 1 < n + 1
    omega

theorem ManyTiles.rowsInTile (h : ManyTiles cards n) (htile : tile ≤ n) :
    (shapeOf cards).rowsInTile tile = 1 := by
  have hin : tile < (shapeOf cards).nTiles := by
    rw [h.shape]
    exact Nat.lt_succ_of_le htile
  rw [h.tiled.rowsInTile hin, h.shape]
  dsimp only
  split_ifs <;> omega

theorem slabAt_manyTiles (h : ManyTiles cards n) (htile : tile ≤ n) :
    SlabAt riceOfByte (manyBytes n) cards 0 tile 0 byteColumn [manyByte n tile] := by
  have hlen := manyBytes_length n
  have hdesc :
      readDescriptor .q (slice (writeDescriptor .q 1 (if tile < n then 0 else 1)) (0 * 16) 16) =
      (1, ((if tile < n then 0 else 1 : Nat) : Int)) := by
    split_ifs <;> decide
  refine ⟨writeDescriptor .q 1 (if tile < n then 0 else 1), ?_, ?_, ?_, ?_⟩
  · unfold readDescriptorRow readBytes
    rw [h.shape]
    dsimp only
    rw [Nat.zero_add, readExact_eq_some (by omega), slice_manyBytes htile]
  · rw [hdesc]
    exact Int.one_nonneg
  · rw [hdesc]
    exact Int.natCast_nonneg _
  · have hblob : readExact (manyBytes n) ((n + 1) * 16 + if tile < n then 0 else 1) 1 =
        some [manyByte n tile] := by
      rw [readExact_eq_some (by split_ifs <;> omega), slice_manyHeap]
    rw [hdesc, h.heap, h.rowsInTile htile, Nat.zero_add]
    unfold decodeSlab readBytes
    rw [show byteColumn.varKind = none from rfl]
    dsimp only
    rw [Int.toNat_natCast, show Int.toNat 1 = 1 from rfl, hblob]
    rfl

theorem readable_manyTiles (h : ManyTiles cards n) :
    Readable riceOfByte rawCells [byteColumn] (manyBytes n) cards 0 := by
  refine ⟨by rw [h.shape]; rfl, fun tile htile col column hcolumn => ?_⟩
  cases col with
  | succ col => cases hcolumn
  | zero =>
    obtain rfl := Option.some.inj hcolumn
    have htile : tile ≤ n := by
      rw [h.shape] at htile
      exact Nat.le_of_lt_succ htile
    refine ⟨_, slabAt_manyTiles h htile, fun inTile hin => ⟨[manyByte n tile], fun row => ?_⟩⟩
    rw [h.rowsInTile htile] at hin
    obtain rfl : inTile = 0 := by omega
    rfl

end

/-- A table of 2³² + 1 tiles. -/
def manyCards : List Card :=
  [str "XTENSION= 'BINTABLE'", str "BITPIX  =                    8",
    str "NAXIS   =                    2", str "NAXIS1  =                   16",
    str "NAXIS2  =           4294967297", str "PCOUNT  =                    2",
    str "GCOUNT  =                    1", str "TFIELDS =                    1",
    str "TTYPE1  = 'A       '", str "TFORM1  = '1QB     '", str "ZTABLE  =                    T",
    str "ZTILELEN=                    1", str "ZNAXIS1 =                    1",
    str "ZNAXIS2 =           4294967297", str "ZPCOUNT =                    0",
    str "ZFORM1  = '1B      '", str "ZCTYP1  = 'RICE_1  '", endCard]

theorem manyTiles_manyCards : ManyTiles manyCards 4294967296 := by
  refine ⟨?_, ?_⟩
  · unfold shapeOf
    rw [show natKeyword manyCards (str "ZNAXIS2") = 4294967297 by decide +kernel,
      show natKeyword manyCards (str "NAXIS2") = 4294967297 by decide +kernel,
      show natKeyword manyCards (str "ZTILELEN") = 1 by decide +kernel,
      show natKeyword manyCards (str "NAXIS1") = 16 by decide +kernel]
  · unfold heapBase
    rw [show (parseKeyword manyCards (str "THEAP")).getD 0 = 0 by decide +kernel,
      show natKeyword manyCards (str "NAXIS2") = 4294967297 by decide +kernel,
      show natKeyword manyCards (str "NAXIS1") = 16 by decide +kernel]
    rfl

/-- In a table of 2³² + 1 tiles the last tile is served with the slab of the first one. -/
theorem not_selectsExactly_manyTiles :
    ∃ request full, resolveRequest [byteColumn] (shapeOf manyCards).nRows none none = .ok request ∧
      readTable riceOfByte fresh rawCells [byteColumn] (manyBytes 4294967296) manyCards 0 request =
        .ok full ∧
      ¬SelectsExactly riceOfByte rawCells [byteColumn] (manyBytes 4294967296) manyCards 0 full := by
  have hmany := manyTiles_manyCards
  have hreadable := readable_manyTiles hmany
  have hrequest : resolveRequest [byteColumn] (shapeOf manyCards).nRows none none =
      .ok byteRequest := rfl
  obtain ⟨full, hfull, -⟩ := exists_readTable_fresh hmany.tiled (fun _ _ => hreadable)
    (rowsInside_of_resolve rfl hrequest) (selected_of_resolve namedApart_byteColumn hrequest)
  refine ⟨byteRequest, full, hrequest, hfull, fun hexact => ?_⟩
  have hkeys := keysServe_of_selectsExactly namedApart_byteColumn hmany.tiled
    rowInErrorsOnly_rawCells (fun _ _ => hreadable) hrequest hfull hexact
  have hin : ∀ tile ≤ 4294967296, tile < (shapeOf manyCards).nTiles := by
    intro tile htile
    rw [hmany.shape]
    exact Nat.lt_succ_of_le htile
  have hlast : Holds riceOfByte rawCells (manyBytes 4294967296) manyCards 0 4294967296 0 byteColumn
      [manyByte 4294967296 4294967296] 0 [7] := fun row => rfl
  have hserved := hkeys 0 0 byteColumn _ (hin 0 (Nat.zero_le _)) rfl
    (slabAt_manyTiles hmany (Nat.zero_le _)) 4294967296 0 byteColumn _ (hin _ le_rfl) rfl rfl
    (slabAt_manyTiles hmany le_rfl) 0 (by rw [hmany.rowsInTile le_rfl]; exact Nat.one_pos)
    [7] hlast 0
  exact absurd hserved (by
    show ¬Except.ok [manyByte 4294967296 0] = (Except.ok [7] : Except PyErr Bytes)
    decide)

end RustFits.CompressedTable
