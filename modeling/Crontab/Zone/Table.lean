import Crontab.Zone.Rule

/-! # The zones by name

The zones that a name can stand for, each with the local mean time or whatever else
held before its first transition.  Rules for the summer run to the year 2099; the last
offset holds for ever after.  Names are looked up as they are written
(`Zone.named`).
-/

namespace Crontab.Zone

/-- The clocks of `UTC`. -/
def utc : Zone :=
  build "UTC" 0 [] []

/-- The clocks of `America/New_York`. -/
def newYork : Zone :=
  build "America/New_York" (-17762)
    [(-2717650800, -18000), (-1633280400, -14400), (-1615140000, -18000), (-1601830800, -14400),
     (-1583690400, -18000), (-1570381200, -14400), (-1551636000, -18000), (-880218000, -14400),
     (126687600, -14400), (162370800, -14400)]
    [⟨1921, 1941, 3, .last, 7200, -18000, -14400⟩,
     ⟨1921, 1941, 8, .last, 7200, -14400, -18000⟩,
     ⟨1945, 1954, 8, .last, 7200, -14400, -18000⟩,
     ⟨1946, 1973, 3, .last, 7200, -18000, -14400⟩,
     ⟨1955, 2006, 9, .last, 7200, -14400, -18000⟩,
     ⟨1976, 1986, 3, .last, 7200, -18000, -14400⟩,
     ⟨1987, 2006, 3, .nth 1, 7200, -18000, -14400⟩,
     ⟨2007, 2099, 2, .nth 2, 7200, -18000, -14400⟩,
     ⟨2007, 2099, 10, .nth 1, 7200, -14400, -18000⟩]

/-- The clocks of `America/St_Johns`. -/
def stJohns : Zone :=
  build "America/St_Johns" (-12652)
    [(-1664130548, -9052), (-1650137348, -12652), (-1632076148, -9052), (-1615145348, -12652),
     (-1598650148, -9052), (-1590100148, -12652), (-1096921748, -12600), (-1093728600, -9000),
     (-1078612200, -12600), (-1061670600, -9000), (-1048973400, -12600), (-1030221000, -9000),
     (-1017523800, -12600), (-998771400, -9000), (-986074200, -12600), (-966717000, -9000),
     (-954624600, -12600), (-935267400, -9000), (-922570200, -12600), (-903817800, -9000),
     (-891120600, -12600), (-872368200, -9000), (-765401400, -12600), (-746044200, -9000),
     (-733347000, -12600), (-714594600, -9000), (-701897400, -12600), (-683145000, -9000),
     (-670447800, -12600), (-651695400, -9000), (-638998200, -12600), (-619641000, -9000),
     (-606943800, -12600), (544591860, -9000), (562127460, -12600), (576041460, -5400),
     (594178260, -12600), (1173583860, -9000), (1194143460, -12600), (1205033460, -9000),
     (1225593060, -12600), (1236483060, -9000), (1257042660, -12600), (1268537460, -9000),
     (1289097060, -12600), (1299987060, -9000)]
    [⟨1920, 1934, 4, .nth 1, 82800, -12652, -9052⟩,
     ⟨1920, 1934, 9, .last, 82800, -9052, -12652⟩,
     ⟨1951, 1959, 8, .last, 7200, -9000, -12600⟩,
     ⟨1951, 1986, 3, .last, 7200, -12600, -9000⟩,
     ⟨1960, 1986, 9, .last, 7200, -9000, -12600⟩,
     ⟨1989, 2006, 3, .nth 1, 60, -12600, -9000⟩,
     ⟨1989, 2006, 9, .last, 60, -9000, -12600⟩,
     ⟨2011, 2099, 10, .nth 1, 7200, -9000, -12600⟩,
     ⟨2012, 2099, 2, .nth 2, 7200, -12600, -9000⟩]

/-- The clocks of `America/Sao_Paulo`. -/
def saoPaulo : Zone :=
  build "America/Sao_Paulo" (-11188)
    [(-1767214412, -10800), (-1206957600, -7200), (-1191362400, -10800), (-1175374800, -7200),
     (-1159826400, -10800), (-633819600, -7200), (-622069200, -10800), (-602283600, -7200),
     (-591832800, -10800), (-570747600, -7200), (-560210400, -10800), (-539125200, -7200),
     (-531352800, -10800), (-195426000, -7200), (-184197600, -10800), (-155163600, -7200),
     (-150069600, -10800), (-128898000, -7200), (-121125600, -10800), (-99954000, -7200),
     (-89589600, -10800), (-68418000, -7200), (-57967200, -10800), (499748400, -7200),
     (511236000, -10800), (530593200, -7200), (540266400, -10800), (562129200, -7200),
     (571197600, -10800), (592974000, -7200), (602042400, -10800), (624423600, -7200),
     (634701600, -10800), (656478000, -7200), (666756000, -10800), (687927600, -7200),
     (697600800, -10800), (719982000, -7200), (728445600, -10800), (750826800, -7200),
     (761709600, -10800), (782276400, -7200), (793159200, -10800), (813726000, -7200),
     (824004000, -10800), (844570800, -7200), (856058400, -10800), (876106800, -7200),
     (888717600, -10800), (908074800, -7200), (919562400, -10800), (938919600, -7200),
     (951616800, -10800), (970974000, -7200), (982461600, -10800), (1003028400, -7200),
     (1013911200, -10800), (1036292400, -7200), (1045360800, -10800), (1066532400, -7200),
     (1076810400, -10800), (1099364400, -7200), (1108864800, -10800), (1129431600, -7200),
     (1140314400, -10800), (1162695600, -7200), (1172368800, -10800), (1192330800, -7200),
     (1203213600, -10800), (1234663200, -10800), (1266717600, -10800), (1298167200, -10800),
     (1330221600, -10800), (1361066400, -10800), (1392516000, -10800), (1424570400, -10800),
     (1456020000, -10800), (1487469600, -10800), (1518919200, -10800), (1541300400, -7200),
     (1550368800, -10800)]
    [⟨2008, 2017, 9, .nth 3, 0, -10800, -7200⟩]

/-- The clocks of `America/Juneau`. -/
def juneau : Zone :=
  build "America/Juneau" 54139
    [(-3225223727, -32261), (-2188954939, -28800), (-880207200, -25200), (-765385200, -28800),
     (-21477600, -25200), (9972000, -25200), (41421600, -25200), (73476000, -25200),
     (104925600, -25200), (126698400, -25200), (162381600, -25200), (199274400, -25200),
     (230724000, -25200), (262778400, -25200), (294228000, -25200), (357127200, -25200),
     (372848400, -28800), (388576800, -25200), (404902800, -28800), (420026400, -25200),
     (436352400, -32400), (452084400, -28800), (483534000, -28800), (514983600, -28800)]
    [⟨1969, 1979, 9, .last, 7200, -25200, -28800⟩,
     ⟨1984, 2006, 9, .last, 7200, -28800, -32400⟩,
     ⟨1987, 2006, 3, .nth 1, 7200, -32400, -28800⟩,
     ⟨2007, 2099, 2, .nth 2, 7200, -32400, -28800⟩,
     ⟨2007, 2099, 10, .nth 1, 7200, -28800, -32400⟩]

/-- The clocks of `America/Caracas`. -/
def caracas : Zone :=
  build "America/Caracas" (-16064)
    [(-2524505536, -16060), (-1826739140, -16200), (-157750200, -14400), (1197183600, -16200),
     (1462086000, -14400)]
    []

/-- The clocks of `Europe/London`. -/
def london : Zone :=
  build "Europe/London" (-75)
    [(-3852662325, 0), (-1691964000, 3600), (-1680472800, 0), (-1664143200, 3600),
     (-1650146400, 0), (-1633903200, 3600), (-1617487200, 0), (-1601848800, 3600),
     (-1586037600, 0), (-1570399200, 3600), (-1552168800, 0), (-1538344800, 3600),
     (-1522533600, 0), (-1507500000, 3600), (-1490565600, 0), (-1473631200, 3600),
     (-1460930400, 0), (-1442786400, 3600), (-1428876000, 0), (-1410732000, 3600),
     (-1379282400, 3600), (-1348437600, 3600), (-1315778400, 3600), (-1284328800, 3600),
     (-1253484000, 3600), (-1221429600, 3600), (-1189980000, 3600), (-1159135200, 3600),
     (-1143410400, 0), (-1126476000, 3600), (-1111960800, 0), (-1095631200, 3600),
     (-1080511200, 0), (-1063576800, 3600), (-1049061600, 0), (-1032127200, 3600),
     (-1017612000, 0), (-1001282400, 3600), (-986162400, 0), (-969228000, 3600), (-950479200, 0),
     (-942012000, 3600), (-904518000, 7200), (-896050800, 3600), (-875487600, 7200),
     (-864601200, 3600), (-844038000, 7200), (-832546800, 3600), (-812588400, 7200),
     (-798073200, 3600), (-781052400, 7200), (-772066800, 3600), (-764805600, 0),
     (-748476000, 3600), (-733356000, 0), (-719445600, 3600), (-717030000, 7200),
     (-706748400, 3600), (-699487200, 0), (-687996000, 3600), (-668037600, 0), (-654732000, 3600),
     (-636588000, 0), (-622072800, 3600), (-605743200, 0), (-590623200, 3600), (-574293600, 0),
     (-558568800, 3600), (-542239200, 0), (-527119200, 3600), (-496274400, 3600),
     (-464220000, 3600), (-432165600, 3600), (-401320800, 3600), (-369266400, 3600),
     (-337816800, 3600), (-306972000, 3600), (-276732000, 3600), (-257983200, 0),
     (-245282400, 3600), (-226533600, 0), (-213228000, 3600), (-195084000, 0), (-182383200, 3600),
     (-163634400, 0), (-150933600, 3600), (-132184800, 0), (-119484000, 3600), (-100735200, 0),
     (-88034400, 3600), (-68680800, 0), (-59004000, 3600), (57722400, 0), (89172000, 0),
     (120621600, 0), (152071200, 0), (183520800, 0), (214970400, 0), (246420000, 0),
     (278474400, 0), (309924000, 0), (341373600, 0), (625626000, 0)]
    [⟨1925, 1932, 9, .nth 1, 10800, 3600, 0⟩,
     ⟨1953, 1960, 9, .nth 1, 10800, 3600, 0⟩,
     ⟨1972, 1980, 2, .nth 3, 7200, 0, 3600⟩,
     ⟨1981, 1988, 9, .nth 4, 7200, 3600, 0⟩,
     ⟨1981, 2099, 2, .last, 3600, 0, 3600⟩,
     ⟨1990, 1995, 9, .nth 4, 7200, 3600, 0⟩,
     ⟨1996, 2099, 9, .last, 7200, 3600, 0⟩]

/-- The clocks of `Europe/Berlin`. -/
def berlin : Zone :=
  build "Europe/Berlin" 3208
    [(-2422054408, 3600), (-1693706400, 7200), (-1680483600, 3600), (-1663455600, 7200),
     (-1650150000, 3600), (-1632006000, 7200), (-1618700400, 3600), (-938905200, 7200),
     (-857257200, 3600), (-844556400, 7200), (-828226800, 3600), (-812502000, 7200),
     (-796777200, 3600), (-781052400, 7200), (-776563200, 10800), (-765936000, 7200),
     (-761180400, 3600), (-748479600, 7200), (-733273200, 3600), (-717631200, 7200),
     (-714610800, 10800), (-710380800, 7200), (-701910000, 3600), (-684975600, 7200),
     (-670460400, 3600), (-654130800, 7200), (-639010800, 3600), (323830800, 7200)]
    [⟨1980, 1995, 8, .last, 10800, 7200, 3600⟩,
     ⟨1981, 2099, 2, .last, 7200, 3600, 7200⟩,
     ⟨1996, 2099, 9, .last, 10800, 7200, 3600⟩]

/-- The clocks of `Europe/Dublin`. -/
def dublin : Zone :=
  build "Europe/Dublin" (-1521)
    [(-1691962479, 2079), (-1680471279, 0), (-1664143200, 3600), (-1650146400, 0),
     (-1633903200, 3600), (-1617487200, 0), (-1601848800, 3600), (-1586037600, 0),
     (-1570399200, 3600), (-1552168800, 0), (-1538344800, 3600), (-1522533600, 0),
     (-1507500000, 3600), (-1490565600, 0), (-1473631200, 3600), (-1460930400, 0),
     (-1442786400, 3600), (-1428876000, 0), (-1410732000, 3600), (-1379282400, 3600),
     (-1348437600, 3600), (-1315778400, 3600), (-1284328800, 3600), (-1253484000, 3600),
     (-1221429600, 3600), (-1189980000, 3600), (-1159135200, 3600), (-1143410400, 0),
     (-1126476000, 3600), (-1111960800, 0), (-1095631200, 3600), (-1080511200, 0),
     (-1063576800, 3600), (-1049061600, 0), (-1032127200, 3600), (-1017612000, 0),
     (-1001282400, 3600), (-986162400, 0), (-969228000, 3600), (-950479200, 0),
     (-942012000, 3600), (-733356000, 0), (-719445600, 3600), (-699487200, 0), (-684972000, 3600),
     (-668037600, 0), (-654732000, 3600), (-636588000, 0), (-622072800, 3600), (-605743200, 0),
     (-590623200, 3600), (-574293600, 0), (-558568800, 3600), (-542239200, 0), (-527119200, 3600),
     (-496274400, 3600), (-464220000, 3600), (-432165600, 3600), (-401320800, 3600),
     (-369266400, 3600), (-337816800, 3600), (-306972000, 3600), (-276732000, 3600),
     (-257983200, 0), (-245282400, 3600), (-226533600, 0), (-213228000, 3600), (-195084000, 0),
     (-182383200, 3600), (-163634400, 0), (-150933600, 3600), (-132184800, 0), (-119484000, 3600),
     (-100735200, 0), (-88034400, 3600), (-68680800, 0), (-59004000, 3600), (57722400, 0),
     (89172000, 0), (120621600, 0), (152071200, 0), (183520800, 0), (214970400, 0),
     (246420000, 0), (278474400, 0), (309924000, 0), (341373600, 0), (625626000, 0)]
    [⟨1925, 1932, 9, .nth 1, 10800, 3600, 0⟩,
     ⟨1953, 1960, 9, .nth 1, 10800, 3600, 0⟩,
     ⟨1972, 1980, 2, .nth 3, 7200, 0, 3600⟩,
     ⟨1981, 1988, 9, .nth 4, 7200, 3600, 0⟩,
     ⟨1981, 2099, 2, .last, 3600, 0, 3600⟩,
     ⟨1990, 1995, 9, .nth 4, 7200, 3600, 0⟩,
     ⟨1996, 2099, 9, .last, 7200, 3600, 0⟩]

/-- The clocks of `Africa/Monrovia`. -/
def monrovia : Zone :=
  build "Africa/Monrovia" (-2588)
    [(-1604359012, -2670), (63593070, 0)]
    []

/-- The clocks of `Asia/Kolkata`. -/
def kolkata : Zone :=
  build "Asia/Kolkata" 21208
    [(-3645237208, 21200), (-3155694800, 19270), (-2019705670, 19800), (-891581400, 23400),
     (-872058600, 19800), (-862637400, 23400), (-764145000, 19800)]
    []

/-- The clocks of `Asia/Tokyo`. -/
def tokyo : Zone :=
  build "Asia/Tokyo" 33539
    [(-2587712400, 32400), (-683802000, 36000), (-672310800, 32400), (-654771600, 36000),
     (-640861200, 32400), (-620298000, 36000), (-609411600, 32400), (-588848400, 36000),
     (-577962000, 32400)]
    []

/-- The clocks of `Asia/Kathmandu`. -/
def kathmandu : Zone :=
  build "Asia/Kathmandu" 20476
    [(-1577943676, 19800), (504901800, 20700)]
    []

/-- The clocks of `Asia/Manila`. -/
def manila : Zone :=
  build "Asia/Manila" (-57368)
    [(-3944621032, 29032), (-2219083200, 28800), (-1046678400, 32400), (-1040115600, 28800),
     (-885024000, 32400), (-760093200, 28800), (-496224000, 32400), (-491562000, 28800),
     (228326400, 32400), (243702000, 28800), (643219200, 32400), (649177200, 28800)]
    []

/-- The clocks of `Asia/Pyongyang`. -/
def pyongyang : Zone :=
  build "Asia/Pyongyang" 30180
    [(-1948782180, 30600), (-1830414600, 32400), (1439564400, 30600), (1525446000, 32400)]
    []

/-- The clocks of `Australia/Sydney`. -/
def sydney : Zone :=
  build "Australia/Sydney" 36292
    [(-2364113092, 36000), (-1672560000, 39600), (-1665388800, 36000), (-883641600, 39600),
     (-876124800, 36000), (-860400000, 39600), (-844675200, 36000), (-828345600, 39600),
     (-813225600, 36000), (67968000, 36000), (386697600, 36000), (415728000, 36000),
     (447177600, 36000), (478627200, 36000), (511286400, 36000), (530035200, 39600),
     (542736000, 36000), (574790400, 36000), (606240000, 36000), (636480000, 36000),
     (667929600, 36000), (699379200, 36000), (731433600, 36000), (762883200, 36000),
     (794332800, 36000), (967305600, 39600), (1004198400, 39600), (1035648000, 39600),
     (1067097600, 39600), (1099152000, 39600), (1130601600, 39600), (1143907200, 36000),
     (1162051200, 39600), (1174752000, 36000), (1193500800, 39600)]
    [⟨1971, 1985, 9, .last, 7200, 36000, 39600⟩,
     ⟨1973, 1981, 2, .nth 1, 10800, 39600, 36000⟩,
     ⟨1987, 1999, 9, .last, 7200, 36000, 39600⟩,
     ⟨1996, 2005, 2, .last, 10800, 39600, 36000⟩,
     ⟨2008, 2099, 3, .nth 1, 10800, 39600, 36000⟩,
     ⟨2008, 2099, 9, .nth 1, 7200, 36000, 39600⟩]

/-- The clocks of `Australia/Lord_Howe`. -/
def lordHowe : Zone :=
  build "Australia/Lord_Howe" 38180
    [(-2364114980, 36000), (352216800, 37800), (372785400, 41400), (384273000, 37800),
     (404839800, 41400), (415722600, 37800), (436289400, 41400), (447172200, 37800),
     (467739000, 41400), (478621800, 37800), (499188600, 39600), (511282800, 37800),
     (530033400, 39600), (542732400, 37800), (574786800, 37800), (606236400, 37800),
     (636476400, 37800), (667926000, 37800), (699375600, 37800), (731430000, 37800),
     (762879600, 37800), (794329200, 37800), (967303800, 39600), (1004196600, 39600),
     (1035646200, 39600), (1067095800, 39600), (1099150200, 39600), (1130599800, 39600),
     (1143903600, 37800), (1162049400, 39600), (1174748400, 37800), (1193499000, 39600)]
    [⟨1987, 1999, 9, .last, 7200, 37800, 39600⟩,
     ⟨1996, 2005, 2, .last, 7200, 39600, 37800⟩,
     ⟨2008, 2099, 3, .nth 1, 7200, 39600, 37800⟩,
     ⟨2008, 2099, 9, .nth 1, 7200, 37800, 39600⟩]

/-- The clocks of `Pacific/Auckland`. -/
def auckland : Zone :=
  build "Pacific/Auckland" 41944
    [(-3192435544, 41400), (-1330335000, 45000), (-1320057000, 41400), (-1300699800, 43200),
     (-1287396000, 41400), (-1269250200, 43200), (-1255946400, 41400), (-1237800600, 43200),
     (-1224496800, 41400), (-1206351000, 43200), (-1192442400, 41400), (-1174901400, 43200),
     (-1160992800, 41400), (-1143451800, 43200), (-1125914400, 41400), (-1112607000, 43200),
     (-1094464800, 41400), (-1081157400, 43200), (-1063015200, 41400), (-1049707800, 43200),
     (-1031565600, 41400), (-1018258200, 43200), (-1000116000, 41400), (-986808600, 43200),
     (-968061600, 41400), (-955359000, 43200), (-936612000, 41400), (-923304600, 43200),
     (152632800, 46800), (162309600, 43200), (623772000, 46800)]
    [⟨1975, 1988, 9, .last, 7200, 43200, 46800⟩,
     ⟨1976, 1989, 2, .nth 1, 10800, 46800, 43200⟩,
     ⟨1990, 2006, 9, .nth 1, 7200, 43200, 46800⟩,
     ⟨1990, 2007, 2, .nth 3, 10800, 46800, 43200⟩,
     ⟨2007, 2099, 8, .last, 7200, 43200, 46800⟩,
     ⟨2008, 2099, 3, .nth 1, 10800, 46800, 43200⟩]

/-- The clocks of `Pacific/Chatham`. -/
def chatham : Zone :=
  build "Pacific/Chatham" 44028
    [(-3192437628, 44100), (-757426500, 45900), (152632800, 49500), (162309600, 45900),
     (623772000, 49500)]
    [⟨1975, 1988, 9, .last, 9900, 45900, 49500⟩,
     ⟨1976, 1989, 2, .nth 1, 13500, 49500, 45900⟩,
     ⟨1990, 2006, 9, .nth 1, 9900, 45900, 49500⟩,
     ⟨1990, 2007, 2, .nth 3, 13500, 49500, 45900⟩,
     ⟨2007, 2099, 8, .last, 9900, 45900, 49500⟩,
     ⟨2008, 2099, 3, .nth 1, 13500, 49500, 45900⟩]

/-- The clocks of `Pacific/Apia`. -/
def apia : Zone :=
  build "Pacific/Apia" 45184
    [(-2445424384, -41216), (-1861878784, -41400), (-631110600, -39600), (1285498800, -36000),
     (1301752800, -39600), (1316872800, -36000), (1325239200, 50400)]
    [⟨2012, 2020, 8, .last, 10800, 46800, 50400⟩,
     ⟨2012, 2021, 3, .nth 1, 14400, 50400, 46800⟩]

/-- The clocks of `Pacific/Kwajalein`. -/
def kwajalein : Zone :=
  build "Pacific/Kwajalein" 40160
    [(-2177492960, 39600), (-1041418800, 36000), (-907408800, 32400), (-817462800, 39600),
     (-7988400, -43200), (745934400, 43200)]
    []

/-- The clocks of `Pacific/Kiritimati`. -/
def kiritimati : Zone :=
  build "Pacific/Kiritimati" (-37760)
    [(-2177415040, -38400), (307622400, -36000), (788868000, 50400)]
    []

/-- The clocks of `Antarctica/Troll`. -/
def troll : Zone :=
  build "Antarctica/Troll" 0
    []
    [⟨2005, 2099, 2, .last, 3600, 0, 7200⟩,
     ⟨2005, 2099, 9, .last, 10800, 7200, 0⟩]

/-- The clocks of `Antarctica/Casey`. -/
def casey : Zone :=
  build "Antarctica/Casey" 0
    [(-31536000, 28800), (1255802400, 39600), (1267714800, 28800), (1319738400, 39600),
     (1329843600, 28800), (1477065600, 39600), (1520701200, 28800), (1538856000, 39600),
     (1552752000, 28800), (1570129200, 39600), (1583596800, 28800), (1601740860, 39600),
     (1615640400, 28800), (1633190460, 39600), (1647090000, 28800), (1664640060, 39600),
     (1678291200, 28800)]
    []

/-- The clocks of `Etc/GMT+12`. -/
def gmtMinus12 : Zone :=
  build "Etc/GMT+12" (-43200) [] []

/-- The clocks of `Etc/GMT-14`. -/
def gmtPlus14 : Zone :=
  build "Etc/GMT-14" 50400 [] []

/-- Every zone that has a name. -/
def all : List Zone :=
  [utc, { utc with name := "Etc/UTC" }, { utc with name := "GMT" }, newYork,
   { newYork with name := "US/Eastern" }, stJohns, saoPaulo, juneau, caracas, london, berlin,
   dublin, monrovia, kolkata, tokyo, kathmandu, manila, pyongyang, sydney, lordHowe, auckland,
   chatham, apia, kwajalein, kiritimati, troll, casey, gmtMinus12, gmtPlus14]

/-- The zone with a name, which is looked up letter for letter. -/
def named (name : String) : Except Failure Zone :=
  match all.find? (·.name == name) with
  | some z => .ok z
  | none => .error (.unknownZone name)

/-- The zone with a name, or universal time where no name is given. -/
def ofName? : Option String → Except Failure Zone
  | some name => named name
  | none => .ok utc

end Crontab.Zone
