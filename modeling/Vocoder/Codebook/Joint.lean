import Vocoder.Codebook.Basic

/-!
The codebook of joint updates: residuals of the fundamental in octaves and of the energy in
decibels.
-/

namespace Vocoder.Codebook

/-- Pairs of residuals, in millionths of an octave and of a decibel. -/
def jointResiduals : Array (Int × Int) := #[
  (2710000, 12018400), (46750, -2738810), (120993, 8388950), (-1580280, -892307),
  (1193070, -1915610), (187101, -3276790), (332251, -7664550), (-1479440, 31246100),
  (1527610, 27709500), (-524379, 5250120), (553330, 7438800), (-843451, -1952990),
  (2263890, 8610290), (143143, 2365490), (616506, 1284270), (-1711330, 22096700),
  (1008130, 17396500), (-106718, 1418910), (-136246, 14273600), (-1709090, -20531900),
  (1657870, -3391070), (138049, -4957850), (536729, -1943750), (196307, 36851900),
  (1272480, 22556500), (-670219, -1906040), (382092, 6401130), (-756911, -4901020),
  (1829310, 4613800), (318794, 736830), (612815, -2075050), (-410151, 24787100),
  (1776020, 13190900), (106457, -104492), (192206, 10183800), (-1824420, -7715650),
  (931346, 4348350), (308813, -4086000), (397143, -11808900), (-48715, 41227300),
  (877342, 35850300), (-759794, 476634), (978593, 7674670), (-1195060, 3038830),
  (2639890, -3411060), (191127, 3603510), (402932, 1084300), (-2152020, 18107600),
  (1546800, 8322710), (-143089, -4075920), (-150142, 5866740), (-1408440, -3250700),
  (1566150, -10413200), (178171, -10226700), (362164, -28556), (-70125, 24390700),
  (594752, 17482800), (-286980, -6904070), (464818, 10205500), (-1006840, -14357200),
  (2329570, -3691610), (335745, 2407140), (1019660, -3155650), (-1259450, 7991900),
  (2383690, 19680600), (-94947, -2413740), (209330, 6664770), (-2221030, 1379860),
  (1292390, 2046330), (243626, -890741), (428773, -7193660), (-1113740, 41341400),
  (2609800, 31140500), (-446468, 2534190), (490104, 4627570), (-1117230, -3241740),
  (1791560, 8414930), (156012, 183336), (532447, 3154550), (-764484, 18514000),
  (952395, 11771300), (-332567, 346987), (202165, 14716800), (-2129240, -15559000),
  (1353580, -1926790), (-10963, -16336400), (399053, -2790570), (750657, 31148300),
  (655743, 24481900), (-453210, -735879), (286900, 6546700), (-715673, -12357800),
  (1548490, 3872170), (271874, 802339), (502073, -4854850), (-497037, 17761900),
  (1191160, 13954400), (15630, 1331570), (341867, 8935370), (-2316010, -5395060),
  (758610, 1964500), (241320, -3237690), (267151, -11234400), (-273126, 32624800),
  (1753520, 40432000), (-784011, 3045760), (705987, 5661180), (-1386400, 1353560),
  (2376460, 1674850), (242973, 4732180), (491227, 354061), (-1606760, 8658950),
  (1167110, 5987100), (-137601, -12041700), (-251375, 10397200), (-1431510, -8904110),
  (988280, -13209000), (261484, -6354970), (395932, -702529), (283704, 26899600),
  (420959, 15441800), (-355804, -13727800), (527372, 12398500), (-1169560, -15998500),
  (1906690, -5816050), (354492, 3851570), (825760, -4162640), (-490190, 13057200),
  (2255770, 13526400), (-4956, -3237130), (26709, 7866450), (-1810370, -451183),
  (1083830, -183620), (135836, -2266580), (375812, -5512250), (-1966440, 38682900),
  (1977990, 24565500), (-704656, 6358810), (480786, 7051750), (-976417, -2422730),
  (2502150, 6759350), (83588, 3258800), (543629, 910013), (-1231960, 23091500),
  (785492, 14807000), (-213554, 1688000), (4748, 18171800), (-1547190, -16116800),
  (1501040, -3281140), (80133, -4634720), (476592, -2180930), (442470, 40304000),
  (1072770, 27592000), (-594738, -4166810), (422480, 7616090), (-927521, -7274410),
  (1991620, 1296360), (291307, 2398780), (721081, -1950620), (-804256, 24929500),
  (1648390, 19119700), (60852, -590639), (266085, 9103250), (-1957400, -2884610),
  (1116930, 2672400), (354580, -2748540), (330733, -14156100), (-527851, 39575600),
  (991152, 43195000), (-589619, 1269190), (787401, 8730710), (-1013800, 1025070),
  (2825400, 1895380), (240890, 2745570), (427195, 2544460), (-1953110, 12244000),
  (1448620, 12060700), (-210492, -3379060), (-56713, 10204000), (-1652370, -5102740),
  (1294750, -12270800), (111608, -8675920), (326634, -1167630), (21781, 31125800),
  (455335, 21468400), (-375440, -3371210), (393620, 11302000), (-851456, -19414900),
  (2107030, -2228860), (373233, 1924060), (884438, -1720580), (-975127, 9840130),
  (2003300, 17395400), (-36915, -1111370), (148456, 5399970), (-1914410, 4773820),
  (1447910, 537122), (194979, -1038180), (495771, -9955020), (-1058990, 32947100),
  (2011220, 32454400), (-309650, 4719110), (436082, 4635520), (-1237110, -1254280),
  (2022740, 9428340), (190342, 1460770), (479017, 2484790), (-1078480, 16221700),
  (1207640, 9654210), (-258087, -1672360), (71852, 13416000), (-1877230, -16072000),
  (1289570, -4871180), (67713, -13442700), (435551, -4165500), (466140, 30589500),
  (904895, 21598000), (-518369, -2532050), (337363, 5637260), (-554975, -17400500),
  (1691880, 1145740), (227934, 889297), (587303, -5729730), (-262133, 18666600),
  (1395050, 17002900), (-19090, 4308380), (304235, 12669900), (-2074060, -6460840),
  (920546, 1212960), (284927, -1785470), (209724, -16024000), (-636067, 31576800),
  (1349890, 34677500), (-971625, 5300860), (590249, 4449710), (-1567870, 3602390),
  (2145500, 4516660), (296022, 4120170), (445299, 868772), (-1441930, 14128400),
  (1355750, 6007400), (-12814, -7496570), (-430000, 8500120), (-1204690, -7113260),
  (1101020, -6836820), (196463, -6234000), (436747, -1129790), (141052, 22854900),
  (290821, 18811400), (-529536, -7732510), (634280, 10789800), (-1334720, -20325800),
  (1815640, -1903320), (394778, 3797580), (732682, -8183820), (-741244, 11768300)]

def joint {α : Type} [Scalar α] : Codebook α where
  dim := 2
  bits := 8
  size := 256
  values := jointResiduals.flatMap fun (octaves, level) =>
    #[Scalar.decimal octaves 6, Scalar.decimal level 6]

end Vocoder.Codebook
